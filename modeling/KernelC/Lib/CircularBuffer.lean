import Mathlib.Data.List.Basic
import Mathlib.Logic.Function.Basic

/-!
# A queue in a circular buffer

A buffer of `n` slots with two indices: `head` is the slot of the next element
to come, `tail` the slot of the oldest one. One slot always stays free, so equal
indices mean an empty queue.

`Buffered n buf head tail q` says that the queue is `q`, oldest element first.
The rules: `Buffered.empty_iff`, `Buffered.full_iff`, `Buffered.push` and
`Buffered.pop`.
-/

namespace KernelC

variable {α : Type*} {n head tail : Nat} {buf : Nat → α} {q : List α} {a : α}

structure Buffered (n : Nat) (buf : Nat → α) (head tail : Nat) (q : List α) : Prop where
  tailLt : tail < n
  lenLt : q.length < n
  head : head = (tail + q.length) % n
  slots : ∀ i b, q[i]? = some b → buf ((tail + i) % n) = b

theorem add_mod_wrap {i : Nat} (ht : tail < n) (hi : i ≤ n) :
    (tail + i) % n = if tail + i < n then tail + i else tail + i - n := by
  split
  · next h => exact Nat.mod_eq_of_lt h
  · next h => rw [Nat.mod_eq_sub_mod (Nat.le_of_not_lt h), Nat.mod_eq_of_lt (by omega)]

namespace Buffered

theorem nil (hn : 0 < n) (buf : Nat → α) : Buffered n buf 0 0 [] :=
  ⟨hn, hn, by simp, by simp⟩

theorem headLt (h : Buffered n buf head tail q) : head < n := by
  rw [h.head]
  exact Nat.mod_lt _ (Nat.zero_lt_of_lt h.tailLt)

theorem empty_iff (h : Buffered n buf head tail q) : head = tail ↔ q = [] := by
  have hlen := h.lenLt
  have ht := h.tailLt
  rw [h.head, add_mod_wrap ht (Nat.le_of_lt hlen), ← List.length_eq_zero_iff]
  split <;> omega

/-- The index behind `head` is `tail` when all slots but one are taken. -/
theorem full_iff (h : Buffered n buf head tail q) : (head + 1) % n = tail ↔ q.length + 1 = n := by
  have hlen := h.lenLt
  have ht := h.tailLt
  rw [h.head, Nat.mod_add_mod, Nat.add_assoc, add_mod_wrap ht hlen]
  split <;> omega

theorem push (h : Buffered n buf head tail q) (hfull : (head + 1) % n ≠ tail) (a : α) :
    Buffered n (Function.update buf head a) ((head + 1) % n) tail (q ++ [a]) := by
  have hlen := h.lenLt
  have ht := h.tailLt
  have hroom : q.length + 1 ≠ n := fun he => hfull (h.full_iff.mpr he)
  refine ⟨ht, ?_, ?_, fun i b hb => ?_⟩
  · rw [List.length_append, List.length_singleton]
    omega
  · rw [h.head, Nat.mod_add_mod, List.length_append, List.length_singleton, Nat.add_assoc]
  · by_cases hi : i < q.length
    · -- the slots of `q` lie before `head`
      have hne : (tail + i) % n ≠ head := by
        rw [h.head, add_mod_wrap ht (by omega), add_mod_wrap ht (by omega)]
        split <;> split <;> omega
      rw [List.getElem?_append_left hi] at hb
      rw [Function.update_of_ne hne]
      exact h.slots i b hb
    · rw [List.getElem?_append_right (by omega)] at hb
      obtain ⟨hzero, rfl⟩ : i - q.length = 0 ∧ a = b := by
        cases hk : i - q.length with
        | zero => simpa [hk] using hb
        | succ k => simp [hk] at hb
      have hi' : i = q.length := by omega
      rw [hi', ← h.head, Function.update_self]

theorem pop (h : Buffered n buf head tail (a :: q)) :
    buf tail = a ∧ Buffered n buf head ((tail + 1) % n) q := by
  have hlen := h.lenLt
  have ht := h.tailLt
  rw [List.length_cons] at hlen
  refine ⟨?_, Nat.mod_lt _ (by omega), by omega, ?_, fun i b hb => ?_⟩
  · have hfirst := h.slots 0 a rfl
    rwa [Nat.add_zero, Nat.mod_eq_of_lt ht] at hfirst
  · rw [h.head, List.length_cons, Nat.mod_add_mod, Nat.add_assoc, Nat.add_comm 1]
  · rw [Nat.mod_add_mod, Nat.add_assoc, Nat.add_comm 1]
    exact h.slots (i + 1) b hb

end Buffered

end KernelC
