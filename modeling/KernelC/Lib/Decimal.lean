import Mathlib.Data.Nat.Digits.Lemmas

/-!
# Decimal numerals

A text is a list of bytes, in ASCII. `decimalValue` reads a text that has nothing but
digits in it; `numeral n` is the text of `n` without leading zeros. The digits of a
number, the last one first, are Mathlib's `Nat.digits 10 n`.

Rules: `decimalValue_numeral`, `numeral_head`, `length_numeral_le`; `decimalValue_pair`
for fields of two digits.
-/

namespace KernelC

def digitChar (d : Nat) : UInt8 := UInt8.ofNat (0x30 + d)

def IsDigit (c : UInt8) : Prop := 0x30 ≤ c.toNat ∧ c.toNat ≤ 0x39

instance (c : UInt8) : Decidable (IsDigit c) := inferInstanceAs (Decidable (_ ∧ _))

instance (l : List UInt8) : Decidable (∀ c ∈ l, IsDigit c) := List.decidableBAll _ l

/-- The number that a text denotes. -/
def decimalValue (l : List UInt8) : Option Nat :=
  if l ≠ [] ∧ ∀ c ∈ l, IsDigit c then some (l.foldl (fun n c => 10 * n + (c.toNat - 0x30)) 0)
  else none

/-- The text of a number, without leading zeros. -/
def numeral (n : Nat) : List UInt8 :=
  if n = 0 then [0x30] else ((Nat.digits 10 n).map digitChar).reverse

theorem toNat_digitChar {d : Nat} (h : d < 10) : (digitChar d).toNat = 0x30 + d := by
  unfold digitChar
  rw [UInt8.toNat_ofNat']
  omega

theorem isDigit_digitChar {d : Nat} (h : d < 10) : IsDigit (digitChar d) := by
  unfold IsDigit
  rw [toNat_digitChar h]
  omega

theorem decimalValue_pair {a b : Nat} (ha : a < 10) (hb : b < 10) :
    decimalValue [digitChar a, digitChar b] = some (10 * a + b) := by
  have hdigits : ∀ c ∈ [digitChar a, digitChar b], IsDigit c := by
    intro c hc
    rcases List.mem_pair.mp hc with rfl | rfl
    · exact isDigit_digitChar ha
    · exact isDigit_digitChar hb
  unfold decimalValue
  rw [if_pos ⟨by simp, hdigits⟩]
  simp only [List.foldl_cons, List.foldl_nil, toNat_digitChar ha, toNat_digitChar hb]
  congr 1
  omega

/-! ## Numerals -/

theorem foldl_digits {ds : List Nat} (h : ∀ d ∈ ds, d < 10) :
    (ds.map digitChar).reverse.foldl (fun n c => 10 * n + (c.toNat - 0x30)) 0 =
      Nat.ofDigits 10 ds := by
  induction ds with
  | nil => rfl
  | cons d ds ih =>
    have hd := toNat_digitChar (h d List.mem_cons_self)
    rw [List.map_cons, List.reverse_cons, List.foldl_append, List.foldl_cons, List.foldl_nil,
      ih fun x hx => h x (List.mem_cons_of_mem _ hx), hd, Nat.ofDigits_cons]
    omega

theorem numeral_ne_nil (n : Nat) : numeral n ≠ [] := by
  unfold numeral
  split
  · simp
  · next hn => simpa [Nat.digits_eq_nil_iff_eq_zero] using hn

theorem numeral_isDigit {n : Nat} {c : UInt8} (h : c ∈ numeral n) : IsDigit c := by
  unfold numeral at h
  split at h
  · rw [List.mem_singleton.mp h]
    decide
  · obtain ⟨d, hd, rfl⟩ := List.mem_map.mp (List.mem_reverse.mp h)
    exact isDigit_digitChar (Nat.digits_lt_base (by decide) hd)

theorem decimalValue_numeral (n : Nat) : decimalValue (numeral n) = some n := by
  unfold decimalValue
  rw [if_pos ⟨numeral_ne_nil n, fun c hc => numeral_isDigit hc⟩]
  unfold numeral
  split
  · next hn => rw [hn]; rfl
  · rw [foldl_digits fun d hd => Nat.digits_lt_base (by decide) hd, Nat.ofDigits_digits]

/-- Only 0 begins with a zero. -/
theorem numeral_head {n : Nat} (hn : n ≠ 0) : (numeral n).head? ≠ some 0x30 := by
  have hne : Nat.digits 10 n ≠ [] := by rwa [Ne, Nat.digits_eq_nil_iff_eq_zero]
  have hlast := Nat.getLast_digit_ne_zero 10 hn
  have hlt := Nat.digits_lt_base (b := 10) (m := n) (by decide) (List.getLast_mem hne)
  unfold numeral
  rw [if_neg hn, List.head?_reverse, List.getLast?_map, List.getLast?_eq_getLast_of_ne_nil hne]
  intro h
  have hzero := congrArg UInt8.toNat (Option.some.inj h)
  rw [toNat_digitChar hlt] at hzero
  exact hlast (by simpa using hzero)

theorem length_numeral_le {n k : Nat} (hk : 0 < k) : (numeral n).length ≤ k ↔ n < 10 ^ k := by
  unfold numeral
  split
  · next hn =>
    rw [hn]
    exact iff_of_true hk (Nat.pow_pos (by decide))
  · rw [List.length_reverse, List.length_map]
    exact Nat.digits_length_le_iff (by decide) n

/-! ## Digit by digit -/

/-- The digits of a number as text, the last one first. -/
def digitText (n : Nat) : List UInt8 := (Nat.digits 10 n).map digitChar

theorem digitText_zero : digitText 0 = [] := by
  simp [digitText]

theorem digitText_step {n : Nat} (hn : n ≠ 0) :
    digitText n = digitChar (n % 10) :: digitText (n / 10) := by
  unfold digitText
  rw [Nat.digits_def' (by decide) (by omega), List.map_cons]

theorem numeral_eq_reverse {n : Nat} (hn : n ≠ 0) : numeral n = (digitText n).reverse := by
  unfold numeral digitText
  rw [if_neg hn]

theorem length_digitText {n : Nat} (hn : n ≠ 0) : (digitText n).length = (numeral n).length := by
  rw [numeral_eq_reverse hn, List.length_reverse]

theorem numeral_of_lt {n : Nat} (hn : n < 10) : numeral n = [digitChar n] := by
  by_cases h0 : n = 0
  · subst h0
    rfl
  · rw [numeral_eq_reverse h0, digitText_step h0, Nat.mod_eq_of_lt hn, Nat.div_eq_of_lt hn,
      digitText_zero]
    rfl

theorem numeral_push {n : Nat} (hn : 10 ≤ n) :
    numeral n = numeral (n / 10) ++ [digitChar (n % 10)] := by
  rw [numeral_eq_reverse (n := n) (by omega), numeral_eq_reverse (n := n / 10) (by omega),
    digitText_step (n := n) (by omega), List.reverse_cons]

end KernelC
