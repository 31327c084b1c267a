import KernelC.Lib.Buffer
import KernelC.Lib.Decimal

/-!
# The decimal printers

Four functions write a number in decimal: `u32_to_dec` (`malloc/malloc.c`), `uint_to_str`
(`syscall/syscall.c`), `itoa` (`kernel.c`) and `u64_to_dec` (`user/htop.asm`). The first two
collect the digits in a buffer of their own and copy them out backwards; `itoa` turns the
digits around in place; `u64_to_dec` writes them from the end of its buffer down and moves
them to the start, where the two ranges may overlap.

A buffer is a list of its size, and a function has no result where it would store to or load
from outside of one.

Result: `decimal_printers`.
-/

namespace KernelC.Printers

/-! ## The functions in C -/

/-- `while (v > 0)`, the loop of the three: the digits of `v`, the last one first, go to `b`
from `i` on. Returns `b` and `i`; a division by 0 has no result. -/
def digitLoop (chr : UInt32 → UInt8) (base : UInt32) (b : List UInt8) (i : Nat) (v : UInt32) :
    Option (List UInt8 × Nat) :=
  if v = 0 then some (b, i)
  else if base = 0 then none
  else if i < b.length then
    digitLoop chr base (b.set i (chr (v % base))) (i + 1) (v / base)
  else none
termination_by b.length - i
decreasing_by
  rw [List.length_set]
  omega

/-- `'0' + d`. -/
def decChar (d : UInt32) : UInt8 := (0x30 + d).toUInt8

/-- The common body of `u32_to_dec` and `uint_to_str`. Returns `tmp` and `buf`. -/
def mirrorToDec (tmp : List UInt8) (v : UInt32) (buf : List UInt8) :
    Option (List UInt8 × List UInt8) :=
  if v = 0 then do
    let buf ← putAt buf 0 0x30
    let buf ← putAt buf 1 0
    some (tmp, buf)
  else do
    let (tmp, i) ← digitLoop decChar 10 tmp 0 v
    let buf ← fillLoop (fun _ j => tmp[i - 1 - j]?) i buf
    let buf ← putAt buf i 0
    some (tmp, buf)

/-- The array `tmp` is a local one: it comes with any contents, and goes. -/
def u32ToDec (tmp : List UInt8) (v : UInt32) (buf : List UInt8) : Option (List UInt8) :=
  (mirrorToDec tmp v buf).map Prod.snd

/-- The array `tmp` is a global one. -/
def uintToStr (tmp : List UInt8) (value : UInt32) (buf : List UInt8) :
    Option (List UInt8 × List UInt8) :=
  mirrorToDec tmp value buf

/-- `(rem > 9) ? (rem - 10) + 'A' : rem + '0'`; `rem` is an `int`. -/
def itoaChar (rem : UInt32) : UInt8 :=
  if 9 < rem.toInt32 then (rem - 10 + 0x41).toUInt8 else (rem + 0x30).toUInt8

def itoa (num : UInt32) (str : List UInt8) (base : Int32) : Option (List UInt8) :=
  if num = 0 then do
    let str ← putAt str 0 0x30
    putAt str 1 0
  else do
    let (str, i) ← digitLoop itoaChar base.toUInt32 str 0 num
    let str ← putAt str i 0
    reverseLoop i str

/-! ## The function of `htop` -/

/-- `.loop_div`, with `rbx` as a distance from the start of the buffer. Returns the buffer,
`rbx` and `r12`. -/
def loopDiv : Nat → List UInt8 → UInt64 → Nat → Option (List UInt8 × Nat × Nat)
  | 0, _, _, _ => none
  | rbx + 1, out, rax, r12 => do
    let dl := (rax % 10).toUInt8 + 0x30
    let rax := rax / 10
    let out ← putAt out rbx dl
    if rax = 0 then some (out, rbx, r12 + 1) else loopDiv rbx out rax (r12 + 1)

def u64ToDec (value : UInt64) (out : List UInt8) : Option (List UInt8) :=
  if value = 0 then do
    let out ← putAt out 0 0x30
    putAt out 1 0
  else do
    let (out, rbx, r12) ← loopDiv 31 out value 0
    -- `rep movsb`, forward
    let out ← fillLoop (fun out j => out[rbx + j]?) r12 out
    putAt out r12 0

/-! ## The digits -/

/-- A character function that gives the digits their usual characters. -/
def Decimal (chr : UInt32 → UInt8) : Prop := ∀ d < 10, chr (UInt32.ofNat d) = digitChar d

instance (chr : UInt32 → UInt8) : Decidable (Decimal chr) :=
  inferInstanceAs (Decidable (∀ d < 10, _))

theorem decimal_decChar : Decimal decChar := by
  decide

theorem decimal_itoaChar : Decimal itoaChar := by
  decide

theorem toNat_ne_zero {v : UInt32} (hv : v ≠ 0) : v.toNat ≠ 0 := by
  rwa [Ne, ← UInt32.toNat_inj] at hv

theorem Decimal.mod {chr : UInt32 → UInt8} (h : Decimal chr) (v : UInt32) :
    chr (v % 10) = digitChar (v.toNat % 10) := by
  rw [← h _ (Nat.mod_lt _ (by decide))]
  congr 1
  apply UInt32.toNat_inj.mp
  simp only [UInt32.toNat_mod, UInt32.toNat_ofNat', UInt32.reduceToNat]
  omega

theorem digitLoop_zero (chr : UInt32 → UInt8) (base : UInt32) (b : List UInt8) (i : Nat) :
    digitLoop chr base b i 0 = some (b, i) := by
  rw [digitLoop, if_pos rfl]

/-- One round of the loop. -/
theorem digitLoop_step {chr : UInt32 → UInt8} (hchr : Decimal chr) (l r : List UInt8) (x : UInt8)
    {v : UInt32} (hv : v ≠ 0) :
    digitLoop chr 10 (l ++ x :: r) l.length v =
      digitLoop chr 10 (l ++ [digitChar (v.toNat % 10)] ++ r)
        (l ++ [digitChar (v.toNat % 10)]).length (v / 10) := by
  rw [digitLoop, if_neg hv, if_neg (by decide), if_pos (by simp), hchr.mod]
  simp

/-- The digits go to the places from `l.length` on. -/
theorem digitLoop_append {chr : UInt32 → UInt8} (hchr : Decimal chr) (l r : List UInt8) (v : UInt32)
    (hroom : (digitText v.toNat).length ≤ r.length) :
    digitLoop chr 10 (l ++ r) l.length v =
      some (l ++ digitText v.toNat ++ r.drop (digitText v.toNat).length,
        (l ++ digitText v.toNat).length) := by
  induction r generalizing l v with
  | nil =>
    have hv : v = 0 := by
      by_contra hv
      rw [digitText_step (toNat_ne_zero hv)] at hroom
      simp at hroom
    subst hv
    rw [digitLoop_zero]
    simp [digitText_zero]
  | cons x r ih =>
    by_cases hv : v = 0
    · subst hv
      rw [digitLoop_zero]
      simp [digitText_zero]
    · have hdiv : (v / 10).toNat = v.toNat / 10 := by simp
      rw [digitText_step (toNat_ne_zero hv), List.length_cons, List.length_cons] at hroom
      rw [digitLoop_step hchr l r x hv, ih _ _ (by rw [hdiv]; omega), hdiv,
        digitText_step (toNat_ne_zero hv)]
      simp

theorem digitLoop_start {chr : UInt32 → UInt8} (hchr : Decimal chr) {b : List UInt8} {v : UInt32}
    (hroom : (digitText v.toNat).length ≤ b.length) :
    digitLoop chr 10 b 0 v =
      some (digitText v.toNat ++ b.drop (digitText v.toNat).length, (digitText v.toNat).length) := by
  have h := digitLoop_append hchr [] b v hroom
  rwa [List.nil_append, List.length_nil, List.nil_append] at h

/-! ## The texts -/

/-- The numeral of `n` and a NUL at the start of `buf`. -/
def written (n : Nat) (buf : List UInt8) : List UInt8 :=
  numeral n ++ 0 :: buf.drop ((numeral n).length + 1)

theorem length_written {n : Nat} {buf : List UInt8} (h : (numeral n).length < buf.length) :
    (written n buf).length = buf.length := by
  unfold written
  rw [List.length_append, List.length_cons, List.length_drop]
  omega

theorem mirrorToDec_spec (tmp : List UInt8) (v : UInt32) (buf : List UInt8)
    (htmp : (numeral v.toNat).length ≤ tmp.length) (hbuf : (numeral v.toNat).length < buf.length) :
    (mirrorToDec tmp v buf).map Prod.snd = some (written v.toNat buf) := by
  unfold mirrorToDec
  by_cases hv : v = 0
  · subst hv
    rw [if_pos rfl]
    match buf, hbuf with
    | x :: y :: r, _ => rfl
  · have hn := toNat_ne_zero hv
    have hlen := length_digitText hn
    have hloop := digitLoop_start decimal_decChar (b := tmp) (v := v) (by omega)
    have hcopy := fillLoop_mirror (digitText v.toNat) (tmp.drop (digitText v.toNat).length)
      (b := buf) (by omega)
    have hnul : putAt (numeral v.toNat ++ buf.drop (digitText v.toNat).length)
        (digitText v.toNat).length 0 = some (written v.toNat buf) := by
      rw [hlen]
      exact putAt_drop hbuf 0
    rw [← numeral_eq_reverse hn] at hcopy
    rw [if_neg hv, hloop]
    simp only [Option.bind_eq_bind, Option.bind_some]
    rw [hcopy, Option.bind_some, hnul]
    rfl

theorem itoa_spec {v : UInt32} {str : List UInt8} (hstr : (numeral v.toNat).length < str.length) :
    itoa v str 10 = some (written v.toNat str) := by
  unfold itoa
  by_cases hv : v = 0
  · subst hv
    rw [if_pos rfl]
    match str, hstr with
    | x :: y :: r, _ => rfl
  · have hn := toNat_ne_zero hv
    have hlen := length_digitText hn
    have hloop := digitLoop_start decimal_itoaChar (b := str) (v := v) (by omega)
    have hnul := putAt_drop (l := digitText v.toNat) (b := str) (by omega) 0
    have hrev := reverseLoop_append (digitText v.toNat)
      (0 :: str.drop ((digitText v.toNat).length + 1))
    rw [← numeral_eq_reverse hn, hlen] at hrev
    rw [if_neg hv, show (10 : Int32).toUInt32 = 10 from rfl, hloop]
    simp only [Option.bind_eq_bind, Option.bind_some]
    rw [hnul, Option.bind_some, hlen]
    exact hrev

/-! ## From the end of the buffer -/

theorem dl_eq (rax : UInt64) : (rax % 10).toUInt8 + 0x30 = digitChar (rax.toNat % 10) := by
  apply UInt8.toNat_inj.mp
  rw [toNat_digitChar (Nat.mod_lt _ (by decide)), UInt8.toNat_add, UInt64.toNat_toUInt8,
    UInt64.toNat_mod]
  simp only [UInt64.reduceToNat, UInt8.reduceToNat]
  omega

/-- The digits go below the place `p.length`. -/
theorem loopDiv_append (p r : List UInt8) (rax : UInt64) (r12 : Nat)
    (hroom : (numeral rax.toNat).length ≤ p.length) :
    ∃ q, q.length + (numeral rax.toNat).length = p.length ∧
      loopDiv p.length (p ++ r) rax r12 =
        some (q ++ numeral rax.toNat ++ r, q.length, r12 + (numeral rax.toNat).length) := by
  induction p using List.reverseRecOn generalizing r rax r12 with
  | nil => exact absurd (List.eq_nil_of_length_eq_zero (by simpa using hroom)) (numeral_ne_nil _)
  | append_singleton p x ih =>
    have hput := putAt_append p r x (digitChar (rax.toNat % 10))
    have hdiv : (rax / 10).toNat = rax.toNat / 10 := by simp
    rw [List.length_append, List.length_singleton] at hroom ⊢
    rw [loopDiv]
    simp only [dl_eq, List.append_assoc, List.singleton_append, hput, Option.bind_eq_bind,
      Option.bind_some]
    by_cases hlast : rax / 10 = 0
    · have hlt : rax.toNat < 10 := by
        rw [hlast] at hdiv
        have hzero : rax.toNat / 10 = 0 := hdiv.symm
        omega
      rw [if_pos hlast, numeral_of_lt hlt, Nat.mod_eq_of_lt hlt]
      exact ⟨p, rfl, rfl⟩
    · have hge : 10 ≤ rax.toNat := by
        by_contra hlt
        refine hlast (UInt64.toNat_inj.mp ?_)
        rw [hdiv]
        exact Nat.div_eq_of_lt (by omega)
      rw [numeral_push hge, List.length_append, List.length_singleton] at hroom ⊢
      obtain ⟨q, hlen, hq⟩ := ih (digitChar (rax.toNat % 10) :: r) (rax / 10) (r12 + 1)
        (by rw [hdiv]; omega)
      rw [hdiv] at hlen hq
      refine ⟨q, by omega, ?_⟩
      rw [if_neg hlast, hq]
      simp only [List.append_assoc, List.singleton_append]
      congr 3
      omega

/-- A 64-bit number has at most 20 digits. -/
theorem length_numeral_u64 (value : UInt64) : (numeral value.toNat).length ≤ 20 := by
  have hlt := value.toNat_lt
  rw [length_numeral_le (by decide)]
  omega

theorem u64ToDec_spec (value : UInt64) {out : List UInt8} (hout : out.length = 32) :
    ∃ rest, u64ToDec value out = some (numeral value.toNat ++ 0 :: rest) ∧
      (numeral value.toNat ++ 0 :: rest).length = 32 := by
  have hlen := length_numeral_u64 value
  unfold u64ToDec
  by_cases hv : value = 0
  · subst hv
    rw [if_pos rfl]
    match out, hout with
    | x :: y :: r, hout => exact ⟨r, rfl, hout⟩
  · -- the buffer ends one byte behind the place where the digits end
    have htake : (out.take 31).length = 31 := List.length_take_of_le (by omega)
    obtain ⟨q, hqlen, hloop⟩ := loopDiv_append (out.take 31) (out.drop 31) value 0 (by omega)
    rw [htake, List.take_append_drop, Nat.zero_add] at hloop
    have hmove := fillLoop_move q (numeral value.toNat) (out.drop 31)
    generalize hm : q ++ numeral value.toNat ++ out.drop 31 = moved at hloop hmove
    have hmoved : moved.length = 32 := by
      rw [← hm, List.length_append, List.length_append, List.length_drop]
      omega
    have hnul := putAt_drop (l := numeral value.toNat) (b := moved) (by omega) 0
    refine ⟨moved.drop ((numeral value.toNat).length + 1), ?_, ?_⟩
    · rw [if_neg hv, hloop]
      simp only [Option.bind_eq_bind, Option.bind_some]
      rw [hmove, Option.bind_some, hnul]
    · rw [List.length_append, List.length_cons, List.length_drop]
      omega

/-! ## The four together -/

/-- The result is a buffer of `room` bytes that begins with `text` and a NUL. -/
def Prints (r : Option (List UInt8)) (room : Nat) (text : List UInt8) : Prop :=
  ∃ b, r = some b ∧ b.length = room ∧ text ++ [0] <+: b

theorem prints_written {r : Option (List UInt8)} {n : Nat} {buf : List UInt8}
    (h : r = some (written n buf)) (hbuf : (numeral n).length < buf.length) :
    Prints r buf.length (numeral n) := by
  refine ⟨_, h, length_written hbuf, buf.drop ((numeral n).length + 1), ?_⟩
  unfold written
  rw [List.append_assoc, List.singleton_append]

/-- For every 32-bit `v`, the three functions in C write the numeral of `v`, which has at
most 10 digits, and a NUL into any buffer of 11 bytes or more, whatever is in the buffers
before; the arrays for the digits have 32 and 11 bytes. For every 64-bit `u`, `u64_to_dec`
does so with the numeral of `u` and a buffer of 32 bytes. The numeral has no leading zero
and denotes the number. No function reads or writes outside of its buffers: it has a
result. -/
theorem decimal_printers (v : UInt32) (u : UInt64) {tmp tmp' b₁ b₂ b₃ b₄ : List UInt8}
    (htmp : tmp.length = 32) (htmp' : tmp'.length = 11) (h₁ : 11 ≤ b₁.length)
    (h₂ : 11 ≤ b₂.length) (h₃ : 11 ≤ b₃.length) (h₄ : b₄.length = 32) :
    Prints (u32ToDec tmp v b₁) b₁.length (numeral v.toNat) ∧
    Prints ((uintToStr tmp' v b₂).map Prod.snd) b₂.length (numeral v.toNat) ∧
    Prints (itoa v b₃ 10) b₃.length (numeral v.toNat) ∧
    Prints (u64ToDec u b₄) 32 (numeral u.toNat) ∧
    (numeral v.toNat).length ≤ 10 ∧
    ∀ n ∈ [v.toNat, u.toNat],
      decimalValue (numeral n) = some n ∧ (n ≠ 0 → (numeral n).head? ≠ some 0x30) := by
  have hlen : (numeral v.toNat).length ≤ 10 := by
    have hlt := v.toNat_lt
    rw [length_numeral_le (by decide)]
    omega
  refine ⟨?_, ?_, ?_, ?_, hlen, fun n _ => ⟨decimalValue_numeral n, numeral_head⟩⟩
  · exact prints_written (mirrorToDec_spec tmp v b₁ (by omega) (by omega)) (by omega)
  · exact prints_written (mirrorToDec_spec tmp' v b₂ (by omega) (by omega)) (by omega)
  · exact prints_written (itoa_spec (by omega)) (by omega)
  · obtain ⟨rest, hrest, hroom⟩ := u64ToDec_spec u h₄
    exact ⟨_, hrest, hroom, rest, by rw [List.append_assoc, List.singleton_append]⟩

/-- The largest numbers, and buffers that are just large enough. -/
theorem decimal_printers_max :
    Prints (u32ToDec (.replicate 32 0xff) 0xffffffff (.replicate 11 0xff)) 11
      (numeral 4294967295) ∧
    Prints ((uintToStr (.replicate 11 0xff) 0xffffffff (.replicate 11 0xff)).map Prod.snd) 11
      (numeral 4294967295) ∧
    Prints (itoa 0xffffffff (.replicate 11 0xff) 10) 11 (numeral 4294967295) ∧
    Prints (u64ToDec 0xffffffffffffffff (.replicate 32 0xff)) 32
      (numeral 18446744073709551615) := by
  have h11 : (List.replicate 11 (0xff : UInt8)).length = 11 := List.length_replicate
  have h32 : (List.replicate 32 (0xff : UInt8)).length = 32 := List.length_replicate
  obtain ⟨hu32, huint, hitoa, hu64, -⟩ := decimal_printers 0xffffffff 0xffffffffffffffff h32 h11
    h11.ge h11.ge h11.ge h32
  exact ⟨hu32, huint, hitoa, hu64⟩

end KernelC.Printers
