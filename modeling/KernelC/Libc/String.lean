import KernelC.Lib.ByteMem
import Mathlib.Data.List.GetD
import Mathlib.Data.List.TakeWhile
import Mathlib.Data.Nat.Find
import Mathlib.Tactic.ByContra

/-!
# Strings: `libc/string.c` and the comparison of `fat16/fs.c`

A C string is a list of non-zero bytes; reading at or past its length gives the
terminating zero. A character array (`char name[64]`) is a list of bytes of
the array's length. The loops are those of the source, with the number of
iterations left as the recursion argument.

Results: `strncpy_getD` (what `strncpy` leaves in an array),
`memcpy_of_outside` (what `memcpy` leaves alone), `nameeq_iff` (an array that
holds a string compares equal to that string only), `nameeq_iff_strncmp` and
`nameeq_arrayStr` (any array that ends in 0 compares equal to the string in it).
-/

namespace KernelC

/-- A NUL-terminated string, without its terminator. -/
structure CStr where
  chars : List UInt8
  noNul : ∀ c ∈ chars, c ≠ 0
deriving DecidableEq

/-- The character at index `i`; the terminator from the length on. -/
def CStr.at (s : CStr) (i : Nat) : UInt8 := s.chars.getD i 0

def CStr.length (s : CStr) : Nat := s.chars.length

def CStr.empty : CStr := ⟨[], by simp⟩

/-- The first `n` characters. -/
def CStr.take (s : CStr) (n : Nat) : CStr :=
  ⟨s.chars.take n, fun c hc => s.noNul c (List.mem_of_mem_take hc)⟩

theorem CStr.at_eq_zero_iff {s : CStr} {i : Nat} : s.at i = 0 ↔ s.length ≤ i := by
  unfold CStr.at CStr.length
  constructor
  · intro h
    by_contra hlt
    rw [List.getD_eq_getElem _ _ (by omega)] at h
    exact s.noNul _ (List.getElem_mem _) h
  · exact fun h => List.getD_eq_default _ _ h

theorem CStr.length_take (s : CStr) (n : Nat) : (s.take n).length = min n s.length :=
  List.length_take

theorem CStr.at_take {s : CStr} {n i : Nat} : (s.take n).at i = if i < n then s.at i else 0 := by
  unfold CStr.at CStr.take
  rw [List.getD_eq_getElem?_getD, List.getElem?_take]
  split
  · rw [List.getD_eq_getElem?_getD]
  · rfl

theorem CStr.take_of_length_le {s : CStr} {n : Nat} (h : s.length ≤ n) : s.take n = s := by
  cases s with
  | mk chars noNul =>
    simp only [CStr.take, CStr.mk.injEq]
    exact List.take_of_length_le h

/-- Strings that agree up to the terminator of one of them are equal. -/
theorem CStr.eq_of_at {s t : CStr} (h : ∀ i, i ≤ s.length → t.at i = s.at i) : t = s := by
  have hend : t.length ≤ s.length := by
    rw [← CStr.at_eq_zero_iff, h _ (Nat.le_refl _)]
    exact CStr.at_eq_zero_iff.mpr (Nat.le_refl _)
  have hlen : t.length = s.length := by
    by_contra hne
    have hz := h t.length hend
    rw [CStr.at_eq_zero_iff.mpr (Nat.le_refl _)] at hz
    exact absurd (CStr.at_eq_zero_iff.mp hz.symm) (by omega)
  have hchars : t.chars = s.chars := by
    refine List.ext_getElem hlen fun i ht hs => ?_
    have hi := h i (Nat.le_of_lt hs)
    unfold CStr.at at hi
    rwa [List.getD_eq_getElem _ _ ht, List.getD_eq_getElem _ _ hs] at hi
  cases s
  cases t
  simp only [CStr.mk.injEq]
  exact hchars

/-- The first loop of `strncpy`: `k = n - i` iterations are left. Returns the
index it stopped at and the array. -/
def strncpyCopy (src : CStr) : Nat → Nat → List UInt8 → Nat × List UInt8
  | 0, i, dst => (i, dst)
  | k + 1, i, dst =>
    if src.at i ≠ 0 then strncpyCopy src k (i + 1) (dst.set i (src.at i)) else (i, dst)

/-- The second loop of `strncpy`: fill up with zeros. -/
def strncpyPad : Nat → Nat → List UInt8 → List UInt8
  | 0, _, dst => dst
  | k + 1, i, dst => strncpyPad k (i + 1) (dst.set i 0)

def strncpy (dst : List UInt8) (src : CStr) (n : Nat) : List UInt8 :=
  let (i, dst) := strncpyCopy src n 0 dst
  strncpyPad (n - i) i dst

/-- The loop of `nameeq`, with `k = n - i` iterations left. -/
def nameeqLoop (a : List UInt8) (b : CStr) : Nat → Nat → Bool
  | 0, _ => true
  | k + 1, i =>
    let ca := a.getD i 0
    let cb := b.at i
    if ca = 0 ∧ cb = 0 then true
    else if ca ≠ cb then false
    else nameeqLoop a b k (i + 1)

def nameeq (a : List UInt8) (b : CStr) (n : Nat) : Bool := nameeqLoop a b n 0

/-- The loop of `strncmp`, in the same way. -/
def strncmpLoop (a : List UInt8) (b : CStr) : Nat → Nat → Int
  | 0, _ => 0
  | k + 1, i =>
    if a.getD i 0 ≠ b.at i then (a.getD i 0).toNat - (b.at i).toNat
    else if a.getD i 0 = 0 then 0
    else strncmpLoop a b k (i + 1)

def strncmp (a : List UInt8) (b : CStr) (n : Nat) : Int := strncmpLoop a b n 0

/-! ## What `strncpy` leaves in the array -/

theorem strncpyPad_length (k i : Nat) (dst : List UInt8) :
    (strncpyPad k i dst).length = dst.length := by
  induction k generalizing i dst with
  | zero => rfl
  | succ k ih => rw [strncpyPad, ih, List.length_set]

theorem strncpyPad_getD {k i j : Nat} {dst : List UInt8} (hlen : i + k ≤ dst.length) :
    (strncpyPad k i dst).getD j 0 = if i ≤ j ∧ j < i + k then 0 else dst.getD j 0 := by
  induction k generalizing i dst with
  | zero => rw [strncpyPad, if_neg (by omega)]
  | succ k ih =>
    rw [strncpyPad, ih (by rw [List.length_set]; omega)]
    by_cases hj : i + 1 ≤ j ∧ j < i + 1 + k
    · rw [if_pos hj, if_pos (by omega)]
    · rw [if_neg hj]
      by_cases hij : j = i
      · subst hij
        rw [if_pos (by omega), List.getD_eq_getElem _ _ (by rw [List.length_set]; omega)]
        simp
      · rw [if_neg (by omega)]
        simp [List.getD_eq_getElem?_getD, List.getElem?_set_ne (Ne.symm hij)]

/-- After the first loop, started at `i`: it stopped at `i'` with the array
copied up to there, and the string is exhausted unless all `k` iterations ran. -/
theorem strncpyCopy_spec (src : CStr) (k i : Nat) (dst : List UInt8)
    (hlen : i + k ≤ dst.length) :
    i ≤ (strncpyCopy src k i dst).1 ∧ (strncpyCopy src k i dst).1 ≤ i + k ∧
    (strncpyCopy src k i dst).2.length = dst.length ∧
    (∀ j, (strncpyCopy src k i dst).2.getD j 0 =
      if i ≤ j ∧ j < (strncpyCopy src k i dst).1 then src.at j else dst.getD j 0) ∧
    ((strncpyCopy src k i dst).1 = i + k ∨ src.length ≤ (strncpyCopy src k i dst).1) := by
  induction k generalizing i dst with
  | zero =>
    refine ⟨Nat.le_refl _, Nat.le_refl _, rfl, fun j => ?_, .inl rfl⟩
    rw [strncpyCopy, if_neg (by omega)]
  | succ k ih =>
    by_cases hc : src.at i ≠ 0
    · simp only [strncpyCopy, if_pos hc]
      obtain ⟨h1, h2, h3, h4, h5⟩ := ih (i + 1) (dst.set i (src.at i))
        (by rw [List.length_set]; omega)
      refine ⟨by omega, by omega, by rw [h3, List.length_set], fun j => ?_, ?_⟩
      · rw [h4 j]
        by_cases hij : j = i
        · subst hij
          rw [if_neg (by omega), if_pos (by omega),
            List.getD_eq_getElem _ _ (by rw [List.length_set]; omega)]
          simp
        · by_cases hj : i + 1 ≤ j ∧ j < (strncpyCopy src k (i + 1) (dst.set i (src.at i))).1
          · rw [if_pos hj, if_pos (by omega)]
          · rw [if_neg hj, if_neg (by omega)]
            simp [List.getD_eq_getElem?_getD, List.getElem?_set_ne (Ne.symm hij)]
      · rcases h5 with h5 | h5
        · exact .inl (by omega)
        · exact .inr h5
    · simp only [strncpyCopy, if_neg hc]
      refine ⟨Nat.le_refl _, by omega, trivial, fun j => ?_, .inr ?_⟩
      · rw [if_neg (by omega)]
      · exact CStr.at_eq_zero_iff.mp (not_not.mp hc)

/-- `strncpy` writes the first `n` bytes of the array and nothing else: the
string, zero from its end on. -/
theorem strncpy_getD (dst : List UInt8) (src : CStr) {n : Nat} (hlen : n ≤ dst.length) (j : Nat) :
    (strncpy dst src n).getD j 0 = if j < n then src.at j else dst.getD j 0 := by
  obtain ⟨-, h2, h3, h4, h5⟩ := strncpyCopy_spec src n 0 dst (by omega)
  unfold strncpy
  generalize strncpyCopy src n 0 dst = r at h2 h3 h4 h5
  obtain ⟨i, arr⟩ := r
  simp only at h2 h3 h4 h5 ⊢
  rw [strncpyPad_getD (by omega), h4]
  by_cases hj : j < n
  · rw [if_pos hj]
    by_cases hij : j < i
    · rw [if_neg (by omega), if_pos (by omega)]
    · rw [if_pos (by omega)]
      rcases h5 with h5 | h5
      · omega
      · exact (CStr.at_eq_zero_iff.mpr (by omega)).symm
  · rw [if_neg hj, if_neg (by omega), if_neg (by omega)]

theorem strncpy_length {dst : List UInt8} {src : CStr} {n : Nat} (hlen : n ≤ dst.length) :
    (strncpy dst src n).length = dst.length := by
  obtain ⟨-, -, h3, -, -⟩ := strncpyCopy_spec src n 0 dst (by omega)
  unfold strncpy
  rw [strncpyPad_length, h3]

/-! ## Copying -/

/-- The memory after the first `n` rounds of the loop of `memcpy`. -/
def memcpy (m : Mem) (dst src : Nat) : Nat → Mem
  | 0 => m
  | i + 1 =>
    let m := memcpy m dst src i
    store m (dst + i) [m (src + i)]

theorem memcpy_of_outside {m : Mem} {dst src n x : Nat} (h : x < dst ∨ dst + n ≤ x) :
    memcpy m dst src n x = m x := by
  induction n with
  | zero => rfl
  | succ n ih =>
    rw [memcpy, store_of_outside (by simp only [List.length_singleton]; omega)]
    exact ih (by omega)

/-- The copy, where the two ranges do not overlap. -/
theorem memcpy_copied {m : Mem} {dst src n i : Nat} (h : dst + n ≤ src ∨ src + n ≤ dst)
    (hi : i < n) : memcpy m dst src n (dst + i) = m (src + i) := by
  induction n with
  | zero => omega
  | succ n ih =>
    rw [memcpy]
    by_cases hlast : i = n
    · subst hlast
      simp only [store, List.length_singleton, Nat.sub_self, List.getD_cons_zero]
      rw [if_pos (by omega)]
      exact memcpy_of_outside (by omega)
    · rw [store_of_outside (by simp only [List.length_singleton]; omega)]
      exact ih (by omega) (by omega)

/-- The memory after the first `n` rounds of the loop of `memset`. -/
def memset (m : Mem) (s : Nat) (c : UInt8) : Nat → Mem
  | 0 => m
  | i + 1 => store (memset m s c i) (s + i) [c]

theorem memset_apply (m : Mem) (s : Nat) (c : UInt8) (n x : Nat) :
    memset m s c n x = if s ≤ x ∧ x < s + n then c else m x := by
  induction n with
  | zero => rw [memset, if_neg (by omega)]
  | succ n ih =>
    rw [memset]
    by_cases hlast : x = s + n
    · subst hlast
      simp only [store, List.length_singleton, Nat.sub_self, List.getD_cons_zero]
      rw [if_pos (by omega), if_pos (by omega)]
    · rw [store_of_outside (by simp only [List.length_singleton]; omega), ih]
      by_cases hin : s ≤ x ∧ x < s + n
      · rw [if_pos hin, if_pos (by omega)]
      · rw [if_neg hin, if_neg (by omega)]

/-! ## Comparing names -/

theorem nameeqLoop_of_agree {a : List UInt8} {b : CStr} {k i : Nat}
    (h : ∀ j, i ≤ j → j < i + k → a.getD j 0 = b.at j) : nameeqLoop a b k i = true := by
  induction k generalizing i with
  | zero => rfl
  | succ k ih =>
    have hi : a.getD i 0 = b.at i := h i (by omega) (by omega)
    have hrest := ih (i := i + 1) fun j h1 h2 => h j (by omega) (by omega)
    rw [nameeqLoop, hi]
    simp [hrest]

/-- Where the loop answers true, array and string agree up to the first place
where both have ended. -/
theorem agree_of_nameeqLoop {a : List UInt8} {b : CStr} {k i : Nat}
    (h : nameeqLoop a b k i = true) {j : Nat} (hij : i ≤ j) (hj : j < i + k)
    (hopen : ∀ m, i ≤ m → m < j → a.getD m 0 ≠ 0) : b.at j = a.getD j 0 := by
  induction k generalizing i with
  | zero => omega
  | succ k ih =>
    rw [nameeqLoop] at h
    by_cases hend : a.getD i 0 = 0 ∧ b.at i = 0
    · by_cases heq : j = i
      · rw [heq, hend.1, hend.2]
      · exact absurd hend.1 (hopen i (Nat.le_refl _) (by omega))
    · rw [if_neg hend] at h
      by_cases hne : a.getD i 0 ≠ b.at i
      · rw [if_pos hne] at h
        cases h
      · rw [if_neg hne] at h
        by_cases heq : j = i
        · rw [heq]
          exact (not_not.mp hne).symm
        · exact ih h (by omega) (by omega) fun m h1 h2 => hopen m (by omega) h2

theorem nameeq_of_agree {a : List UInt8} {b : CStr} {n : Nat}
    (h : ∀ j, j < n → a.getD j 0 = b.at j) : nameeq a b n = true :=
  nameeqLoop_of_agree fun j _ hj => h j (by omega)

/-- An array that holds a string of fewer than `n` characters compares equal to
that string and to no other. -/
theorem nameeq_iff {a : List UInt8} {s t : CStr} {n : Nat} (hs : s.length < n)
    (h : ∀ j, j < n → a.getD j 0 = s.at j) : nameeq a t n = true ↔ t = s := by
  constructor
  · intro heq
    refine CStr.eq_of_at fun i hi => ?_
    rw [← h i (by omega)]
    refine agree_of_nameeqLoop heq (Nat.zero_le _) (by omega) fun m _ hm hz => ?_
    rw [h m (by omega)] at hz
    exact absurd (CStr.at_eq_zero_iff.mp hz) (by omega)
  · rintro rfl
    exact nameeq_of_agree h

/-- The two comparisons agree, whatever the array holds. -/
theorem nameeq_iff_strncmp (a : List UInt8) (b : CStr) (n : Nat) :
    nameeq a b n = true ↔ strncmp a b n = 0 := by
  unfold nameeq strncmp
  generalize 0 = i
  induction n generalizing i with
  | zero => exact iff_of_true rfl rfl
  | succ k ih =>
    rw [nameeqLoop, strncmpLoop]
    by_cases hne : a.getD i 0 ≠ b.at i
    · have hend : ¬ (a.getD i 0 = 0 ∧ b.at i = 0) := fun hz => hne (hz.1.trans hz.2.symm)
      rw [if_neg hend, if_pos hne, if_pos hne]
      refine iff_of_false (by simp) fun hz => hne (UInt8.toNat_inj.mp ?_)
      omega
    · have heq := not_not.mp hne
      rw [if_neg hne, if_neg hne, heq]
      by_cases hz : b.at i = 0
      · rw [if_pos ⟨hz, hz⟩, if_pos hz]
        exact iff_of_true rfl rfl
      · rw [if_neg fun h => hz h.1, if_neg hz]
        exact ih (i + 1)

/-- An array that ends in 0 compares equal to no string that would fill it. -/
theorem nameeq_long {a : List UInt8} {s : CStr} {n : Nat} (ha : a.getD (n - 1) 0 = 0)
    (hn : 0 < n) (hs : n ≤ s.length) : nameeq a s n = false := by
  by_contra h
  rw [Bool.not_eq_false] at h
  have hex : ∃ m, a.getD m 0 = 0 := ⟨_, ha⟩
  -- the first place where the array has ended
  have hfirst := Nat.find_spec hex
  have hle : Nat.find hex ≤ n - 1 := Nat.find_min' hex ha
  have hagree := agree_of_nameeqLoop h (Nat.zero_le (Nat.find hex)) (by omega)
    fun m _ hm => Nat.find_min hex hm
  rw [hfirst, CStr.at_eq_zero_iff] at hagree
  omega

/-! ## The string in an array -/

/-- The loop of `strlen`, over an array. -/
def strlen : List UInt8 → Nat
  | [] => 0
  | c :: s => if c ≠ 0 then strlen s + 1 else 0

/-- The string that an array holds: what is in front of its first zero. -/
def arrayStr (a : List UInt8) : CStr where
  chars := a.takeWhile fun c => c ≠ 0
  noNul c hc := by simpa using List.mem_takeWhile_imp hc

theorem strlen_eq (a : List UInt8) : strlen a = (arrayStr a).length := by
  induction a with
  | nil => rfl
  | cons c a ih =>
    unfold CStr.length arrayStr at ih ⊢
    by_cases hc : c = 0
    · simp [strlen, hc]
    · simp [strlen, hc, ih]

theorem arrayStr_at (a : List UInt8) (j : Nat) :
    (arrayStr a).at j = if j < strlen a then a.getD j 0 else 0 := by
  rw [strlen_eq]
  by_cases hj : j < (arrayStr a).length
  · have hpre : (arrayStr a).chars <+: a := List.takeWhile_prefix _
    rw [if_pos hj, CStr.at, List.getD_eq_getElem _ _ hj,
      List.getD_eq_getElem _ _ (Nat.lt_of_lt_of_le hj hpre.length_le)]
    exact hpre.getElem hj
  · rw [if_neg hj, CStr.at_eq_zero_iff]
    omega

/-- The array has ended at its `strlen`. -/
theorem getD_strlen (a : List UInt8) : a.getD (strlen a) 0 = 0 := by
  induction a with
  | nil => rfl
  | cons c a ih =>
    by_cases hc : c = 0
    · simp [strlen, hc]
    · simpa [strlen, hc] using ih

theorem strlen_le {a : List UInt8} {j : Nat} (h : a.getD j 0 = 0) : strlen a ≤ j := by
  induction a generalizing j with
  | nil => exact Nat.zero_le _
  | cons c a ih =>
    by_cases hc : c = 0
    · simp [strlen, hc]
    · cases j with
      | zero => exact absurd (by simpa using h) hc
      | succ j =>
        have hj := ih (j := j) (by simpa using h)
        simpa [strlen, hc] using hj

theorem getD_ne_zero {a : List UInt8} {j : Nat} (h : j < strlen a) : a.getD j 0 ≠ 0 :=
  fun hz => absurd (strlen_le hz) (by omega)

/-- Where array and string end together, the loop answers true. -/
theorem nameeqLoop_of_end {a : List UInt8} {b : CStr} {m k i : Nat} (hi : i ≤ m)
    (hend : a.getD m 0 = 0) (h : ∀ j, j ≤ m → a.getD j 0 = b.at j) :
    nameeqLoop a b k i = true := by
  induction k generalizing i with
  | zero => rfl
  | succ k ih =>
    have heq := h i hi
    rw [nameeqLoop]
    by_cases hz : a.getD i 0 = 0 ∧ b.at i = 0
    · exact if_pos hz
    · have him : i ≠ m := fun hc => hz ⟨hc ▸ hend, heq ▸ hc ▸ hend⟩
      rw [if_neg hz, if_neg (not_not.mpr heq), ih (by omega)]

/-- An array that ends in 0 compares equal to the string it holds and to no other,
whatever is behind that string. -/
theorem nameeq_arrayStr {a : List UInt8} {t : CStr} {n : Nat} (hn : 0 < n)
    (ha : a.getD (n - 1) 0 = 0) : nameeq a t n = true ↔ t = arrayStr a := by
  have hlen := strlen_le ha
  constructor
  · intro h
    refine CStr.eq_of_at fun j hj => ?_
    rw [← strlen_eq] at hj
    rw [arrayStr_at, agree_of_nameeqLoop h (Nat.zero_le j) (by omega)
      fun m _ hm => getD_ne_zero (by omega)]
    split
    · rfl
    · rw [show j = strlen a by omega, getD_strlen]
  · rintro rfl
    refine nameeqLoop_of_end (Nat.zero_le _) (getD_strlen a) fun j hj => ?_
    rw [arrayStr_at]
    split
    · rfl
    · rw [show j = strlen a by omega, getD_strlen]

end KernelC
