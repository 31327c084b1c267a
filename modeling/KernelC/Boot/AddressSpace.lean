import KernelC.Lib.Paging

/-!
# The address space: the page tables of `kernel.asm`

Three tables stand one after the other in the data of `kernel.asm`: a topmost table and one below
it with one entry each, and a table of 512 large pages. The assembler fills up the first two with
the byte of a NOP, 0x90; that these are no entries is due to its lowest bit.

Result: `address_space`. The rest of the development takes an address for the place in memory, and
this is where it may.
-/

namespace KernelC.Boot

open Paging

/-! ## `section .data` -/

/-- A table with one entry, and what `align 4096` puts behind it. -/
def oneEntry (e : Nat) : List UInt8 := bytesLE 8 e ++ List.replicate (4096 - 8) 0x90

def pml4Table (pdptTable : Nat) : List UInt8 := oneEntry (pdptTable + 0x007)

def pdptTable (pdTable : Nat) : List UInt8 := oneEntry (pdTable + 0x007)

def pdTable : List UInt8 := (List.range 512).flatMap fun j => bytesLE 8 (j * 0x200000 + 0x087)

/-- The tables are in memory, from `pml4` on. -/
structure TablesAt (m : Mem) (pml4 : Nat) : Prop where
  aligned : pml4 % 4096 = 0
  low : pml4 + 3 * 4096 ≤ 2 ^ 32
  pml4Table : load m pml4 4096 = pml4Table (pml4 + 4096)
  pdptTable : load m (pml4 + 4096) 4096 = pdptTable (pml4 + 2 * 4096)
  pdTable : load m (pml4 + 2 * 4096) 4096 = pdTable

/-! ## The entries -/

/-- An entry in the middle of a table. -/
theorem load_entry {m : Mem} {t i : Nat} (hi : i < 512) :
    load m (t + 8 * i) 8 = ((load m t 4096).drop (8 * i)).take 8 := by
  have hsplit := load_add m t (8 * i) (4096 - 8 * i)
  have htail : (load m t 4096).drop (8 * i) = load m (t + 8 * i) (4096 - 8 * i) := by
    rw [show 4096 = 8 * i + (4096 - 8 * i) by omega, hsplit,
      List.drop_append_of_le_length (by rw [load_length])]
    rw [List.drop_eq_nil_of_le (by rw [load_length]), List.nil_append]
    congr 1
    omega
  rw [htail, load_take, Nat.min_eq_left (by omega)]

theorem oneEntry_first {m : Mem} {t e : Nat} (h : load m t 4096 = oneEntry e) (he : e < 2 ^ 64) :
    readLE m t 8 = e := by
  have hentry := load_entry (m := m) (t := t) (i := 0) (by decide)
  rw [Nat.mul_zero, Nat.add_zero, List.drop_zero, h, oneEntry,
    List.take_append_of_le_length (by rw [bytesLE_length]),
    List.take_of_length_le (by rw [bytesLE_length])] at hentry
  rw [readLE, hentry, ofLE_bytesLE]
  exact Nat.mod_eq_of_lt he

/-- Eight NOPs are not present. -/
theorem oneEntry_rest {m : Mem} {t e : Nat} (h : load m t 4096 = oneEntry e) {i : Nat}
    (hi : i < 512) (h0 : i ≠ 0) : present (readLE m (t + 8 * i) 8) = false := by
  have hentry := load_entry (m := m) (t := t) hi
  rw [h, oneEntry, List.drop_append, List.drop_eq_nil_of_le (by rw [bytesLE_length]; omega),
    List.nil_append, bytesLE_length, List.drop_replicate, List.take_replicate,
    Nat.min_eq_left (by omega)] at hentry
  rw [readLE, hentry]
  decide

theorem length_range_flatMap {f : Nat → List UInt8} (hf : ∀ j, (f j).length = 8) (n : Nat) :
    ((List.range n).flatMap f).length = 8 * n := by
  induction n with
  | zero => rfl
  | succ n ih =>
    rw [List.range_succ, List.flatMap_append, List.length_append, ih, List.flatMap_singleton, hf]
    omega

theorem range_flatMap_drop {f : Nat → List UInt8} (hf : ∀ j, (f j).length = 8) {n i : Nat}
    (hi : i < n) : (((List.range n).flatMap f).drop (8 * i)).take 8 = f i := by
  have hlen := length_range_flatMap hf
  induction n with
  | zero => omega
  | succ n ih =>
    rw [List.range_succ, List.flatMap_append, List.flatMap_singleton]
    by_cases hlast : i = n
    · rw [hlast, List.drop_append, List.drop_eq_nil_of_le (by rw [hlen]), List.nil_append, hlen,
        Nat.sub_self, List.drop_zero, List.take_of_length_le (by rw [hf])]
    · rw [List.drop_append_of_le_length (by rw [hlen]; omega), List.take_append_of_le_length
        (by rw [List.length_drop, hlen]; omega)]
      exact ih (by omega)

/-- The large pages. -/
theorem pdTable_entry {m : Mem} {t j : Nat} (h : load m t 4096 = pdTable) (hj : j < 512) :
    LargePage 1 (readLE m (t + 8 * j) 8) (0 + j * 2 ^ span 1) true true := by
  have hread : readLE m (t + 8 * j) 8 = j * 0x200000 + 0x087 := by
    rw [readLE, load_entry hj, h, pdTable,
      range_flatMap_drop (fun i => bytesLE_length 8 _) hj, ofLE_bytesLE]
    exact Nat.mod_eq_of_lt (by omega)
  have hspan : span 1 = 21 := rfl
  rw [hread]
  constructor
  · rw [present, Nat.testBit_eq_decide_div_mod_eq]
    exact decide_eq_true (by omega)
  · rw [large, Nat.testBit_eq_decide_div_mod_eq]
    exact decide_eq_true (by omega)
  · rw [reserved, hspan]
    omega
  · rw [base, hspan]
    omega
  · rw [writable, Nat.testBit_eq_decide_div_mod_eq]
    exact decide_eq_true (by omega)
  · rw [user, Nat.testBit_eq_decide_div_mod_eq]
    exact decide_eq_true (by omega)

/-- The entry of a table that leads on to the table at `t`. -/
theorem flags_entry {t : Nat} (ht : t % 4096 = 0) (hlow : t < 2 ^ 32) :
    present (t + 0x007) = true ∧ large (t + 0x007) = false ∧ base 12 (t + 0x007) = t ∧
      writable (t + 0x007) = true ∧ user (t + 0x007) = true := by
  simp only [present, large, writable, user, base, Nat.testBit_eq_decide_div_mod_eq]
  refine ⟨decide_eq_true ?_, decide_eq_false ?_, ?_, decide_eq_true ?_, decide_eq_true ?_⟩
  · omega
  · omega
  · omega
  · omega
  · omega

theorem walk_oneEntry {m : Mem} {l t t' a : Nat} (h : load m t 4096 = oneEntry (t' + 0x007))
    (ht : t' % 4096 = 0) (hlow : t' < 2 ^ 32) :
    walk m (l + 1) t a =
      if a % 2 ^ span (l + 2) < 2 ^ span (l + 1) then walk m l t' a else none := by
  obtain ⟨hpresent, hlarge, hbase, hwritable, huser⟩ := flags_entry ht hlow
  have hunder : (fun p : Page => p.under (t' + 0x007)) = id := by
    funext p
    rw [Page.under, hwritable, huser, Bool.and_true, Bool.and_true]
    rfl
  rw [walk_first (oneEntry_first h (by omega)) hpresent hlarge
    (fun i hi h0 => oneEntry_rest h hi h0), hbase, hunder, Option.map_id]
  rfl

/-- As long as the tables are in memory, whoever makes the access: the first GiB is mapped to
itself, writable and open to every ring, and an access anywhere else is a page fault, or a general
protection fault where the address is not canonical. -/
theorem address_space {m : Mem} {pml4 : Nat} (h : TablesAt m pml4) (a : Nat) :
    pageOf m pml4 a = if a < 2 ^ 30 then some ⟨a, true, true⟩ else none := by
  have haligned := h.aligned
  have hlow := h.low
  have hcr3 : base 12 pml4 = pml4 := by
    rw [base]
    omega
  have h3 := walk_oneEntry (l := 2) (a := a) h.pml4Table (by omega) (by omega)
  have h2 := walk_oneEntry (l := 1) (a := a) h.pdptTable (by omega) (by omega)
  have h1 := walk_linear (l := 0) (a := a) (by decide) fun j hj => pdTable_entry h.pdTable hj
  have hspan : span 4 = 48 ∧ span 3 = 39 ∧ span 2 = 30 := ⟨rfl, rfl, rfl⟩
  rw [Nat.zero_add] at h1
  unfold pageOf
  rw [hcr3, h3, h2, h1, hspan.1, hspan.2.1, hspan.2.2]
  by_cases ha : a < 2 ^ 30
  · have hcanonical : Canonical a := Or.inl (by omega)
    rw [if_pos hcanonical, if_pos (by omega), if_pos (by omega), if_pos ha, Nat.zero_add,
      Nat.mod_eq_of_lt ha]
  · rw [if_neg ha]
    split
    · next hcanonical =>
      unfold Canonical at hcanonical
      split
      · exact if_neg (by omega)
      · rfl
    · rfl

/-- The tables at 0x109000, in a memory that is clear elsewhere. -/
def bootImage : Mem :=
  store (store (store (fun _ => 0) 0x109000 (pml4Table 0x10A000)) 0x10A000 (pdptTable 0x10B000))
    0x10B000 pdTable

theorem bootImage_tables : TablesAt bootImage 0x109000 := by
  have hone : ∀ e, (oneEntry e).length = 4096 := by
    intro e
    rw [oneEntry, List.length_append, bytesLE_length, List.length_replicate]
  have h3 : (pml4Table 0x10A000).length = 4096 := hone _
  have h2 : (pdptTable 0x10B000).length = 4096 := hone _
  have h1 : pdTable.length = 4096 := length_range_flatMap (fun j => bytesLE_length 8 _) 512
  have hsame : ∀ (m : Mem) (a : Nat) (bs : List UInt8), bs.length = 4096 →
      load (store m a bs) a 4096 = bs := by
    intro m a bs hbs
    rw [← hbs]
    exact load_store_same m a bs
  refine ⟨by decide, by decide, ?_, ?_, hsame _ _ _ h1⟩
  · unfold bootImage
    rw [load_store_of_disjoint (by omega), load_store_of_disjoint (by omega)]
    exact hsame _ _ _ h3
  · unfold bootImage
    rw [load_store_of_disjoint (by omega)]
    exact hsame _ _ _ h2

/-- The text buffer of the screen is mapped, what is behind the first GiB is not. -/
theorem address_space_boot :
    pageOf bootImage 0x109000 0xB8000 = some ⟨0xB8000, true, true⟩ ∧
      pageOf bootImage 0x109000 (2 ^ 30) = none :=
  ⟨address_space bootImage_tables 0xB8000, address_space bootImage_tables (2 ^ 30)⟩

end KernelC.Boot
