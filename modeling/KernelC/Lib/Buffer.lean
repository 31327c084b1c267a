import Mathlib.Data.List.Basic

/-!
# Buffers of a fixed size

A buffer is a list whose length does not change. A store behind its end has no result, and
neither has a loop that makes one, so that a loop with a result has stayed inside.

Rules: `fillLoop_eq` for a loop that writes one place after the other, with the two cases
`fillLoop_mirror` and `fillLoop_move`; `reverseLoop_append` for the reversal in place.
-/

namespace KernelC

variable {α : Type}

/-- `b[i] = c`. -/
def putAt (b : List α) (i : Nat) (c : α) : Option (List α) :=
  if i < b.length then some (b.set i c) else none

theorem putAt_append (l r : List α) (x c : α) :
    putAt (l ++ x :: r) l.length c = some (l ++ c :: r) := by
  unfold putAt
  rw [if_pos (by simp)]
  simp

/-- A store right behind what has been written. -/
theorem putAt_drop {l b : List α} (h : l.length < b.length) (c : α) :
    putAt (l ++ b.drop l.length) l.length c = some (l ++ c :: b.drop (l.length + 1)) := by
  rw [List.drop_eq_getElem_cons h, putAt_append]

/-! ## One place after the other -/

/-- `for (j = 0; j < n; j++) b[j] = read(j)`, where `read` may look into `b`. -/
def fillLoop (read : List α → Nat → Option α) (n : Nat) (b : List α) : Option (List α) :=
  (List.range n).foldlM (fun b j => (read b j).bind (putAt b j)) b

theorem fillLoop_succ (read : List α → Nat → Option α) (n : Nat) (b : List α) :
    fillLoop read (n + 1) b = (fillLoop read n b).bind fun b => (read b n).bind (putAt b n) := by
  unfold fillLoop
  rw [List.range_succ, List.foldlM_append]
  simp only [List.foldlM_cons, List.foldlM_nil, Option.bind_eq_bind, Option.pure_def,
    Option.bind_fun_some]

/-- After `n` rounds the first `n` places are written and the others are as before. -/
theorem fillLoop_take {f : List α → Nat → Option α} {l b : List α} (hlen : l.length ≤ b.length)
    (hread : ∀ j, j < l.length → f (l.take j ++ b.drop j) j = l[j]?) {n : Nat}
    (hn : n ≤ l.length) : fillLoop f n b = some (l.take n ++ b.drop n) := by
  induction n with
  | zero => rfl
  | succ n ih =>
    have htake : (l.take n).length = n := List.length_take_of_le (by omega)
    have hput := putAt_drop (l := l.take n) (b := b) (by omega) (l[n])
    rw [htake] at hput
    rw [fillLoop_succ, ih (by omega), Option.bind_some, hread n (by omega),
      List.getElem?_eq_getElem (by omega), Option.bind_some, hput,
      List.take_succ_eq_append_getElem (by omega), List.append_assoc, List.singleton_append]

theorem fillLoop_eq {f : List α → Nat → Option α} {l b : List α} (hlen : l.length ≤ b.length)
    (hread : ∀ j, j < l.length → f (l.take j ++ b.drop j) j = l[j]?) :
    fillLoop f l.length b = some (l ++ b.drop l.length) := by
  rw [fillLoop_take hlen hread (Nat.le_refl _), List.take_length]

/-- The source is read backwards, from another buffer. -/
theorem fillLoop_mirror (l r : List α) {b : List α} (h : l.length ≤ b.length) :
    fillLoop (fun _ j => (l ++ r)[l.length - 1 - j]?) l.length b =
      some (l.reverse ++ b.drop l.length) := by
  have hread : ∀ j, j < l.reverse.length → (l ++ r)[l.length - 1 - j]? = l.reverse[j]? := by
    intro j hj
    rw [List.length_reverse] at hj
    rw [List.getElem?_reverse hj, List.getElem?_append_left (by omega)]
  have hfits : l.reverse.length ≤ b.length := by rwa [List.length_reverse]
  have hfill := fillLoop_eq (f := fun _ j => (l ++ r)[l.length - 1 - j]?) hfits hread
  rwa [List.length_reverse] at hfill

/-- A move to the start of the buffer, forward: what a round reads has not been written
yet, also where the two ranges overlap. -/
theorem fillLoop_move (p l r : List α) :
    fillLoop (fun b j => b[p.length + j]?) l.length (p ++ l ++ r) =
      some (l ++ (p ++ l ++ r).drop l.length) := by
  refine fillLoop_eq (by simp only [List.length_append]; omega) fun j hj => ?_
  have htake : (l.take j).length = j := List.length_take_of_le (by omega)
  rw [List.getElem?_append_right (by omega), htake, List.getElem?_drop,
    show j + (p.length + j - j) = p.length + j by omega, List.append_assoc,
    List.getElem?_append_right (by omega), Nat.add_sub_cancel_left, List.getElem?_append_left hj]

/-! ## Reversal in place -/

/-- `t = b[i]; b[i] = b[j]; b[j] = t`. -/
def swapAt (b : List α) (i j : Nat) : Option (List α) := do
  let x ← b[i]?
  let y ← b[j]?
  let b ← putAt b i y
  putAt b j x

theorem swapAt_spec {b : List α} {i j : Nat} (hi : i < b.length) (hj : j < b.length) :
    ∃ b', swapAt b i j = some b' ∧ b'.length = b.length ∧
      ∀ x, b'[x]? = if x = j then b[i]? else if x = i then b[j]? else b[x]? := by
  refine ⟨(b.set i b[j]).set j b[i], ?_, by simp, fun x => ?_⟩
  · unfold swapAt putAt
    simp [hi, hj]
  · rw [List.getElem?_set, List.getElem?_set, List.length_set, List.getElem?_eq_getElem hi,
      List.getElem?_eq_getElem hj]
    split_ifs <;> first | rfl | omega

/-- `for (j = 0; j < n / 2; j++)` swap the places `j` and `n - j - 1`. -/
def reverseLoop (n : Nat) (b : List α) : Option (List α) :=
  (List.range (n / 2)).foldlM (fun b j => swapAt b j (n - j - 1)) b

/-- After `k` swaps, the places with one of the `k` outermost pairs are exchanged. -/
theorem reverse_swaps {n : Nat} {b : List α} (hn : n ≤ b.length) {k : Nat} (hk : k ≤ n / 2) :
    ∃ b', (List.range k).foldlM (fun b j => swapAt b j (n - j - 1)) b = some b' ∧
      b'.length = b.length ∧
      ∀ x, b'[x]? = if x < n ∧ min x (n - x - 1) < k then b[n - x - 1]? else b[x]? := by
  induction k with
  | zero => exact ⟨b, rfl, rfl, fun x => by simp⟩
  | succ k ih =>
    obtain ⟨b₁, hrun, hlen, hget⟩ := ih (by omega)
    obtain ⟨b₂, hswap, hlen', hget'⟩ :=
      swapAt_spec (b := b₁) (i := k) (j := n - k - 1) (by omega) (by omega)
    refine ⟨b₂, ?_, by omega, fun x => ?_⟩
    · rw [List.range_succ, List.foldlM_append, hrun]
      simpa using hswap
    · -- the pair of this round has not been touched before
      have hlow : b₁[k]? = b[k]? := by rw [hget k, if_neg (by omega)]
      have hhigh : b₁[n - k - 1]? = b[n - k - 1]? := by rw [hget (n - k - 1), if_neg (by omega)]
      rw [hget', hlow, hhigh, hget x]
      by_cases hx : x = n - k - 1
      · rw [if_pos hx, if_pos (by omega), show n - x - 1 = k by omega]
      rw [if_neg hx]
      by_cases hx' : x = k
      · rw [if_pos hx', if_pos (by omega), hx']
      rw [if_neg hx']
      refine if_congr ?_ rfl rfl
      omega

theorem reverseLoop_append (l r : List α) :
    reverseLoop l.length (l ++ r) = some (l.reverse ++ r) := by
  obtain ⟨b, hrun, -, hget⟩ :=
    reverse_swaps (n := l.length) (b := l ++ r) (by simp) (Nat.le_refl (l.length / 2))
  unfold reverseLoop
  rw [hrun]
  congr 1
  refine List.ext_getElem? fun x => ?_
  rw [hget x]
  by_cases hx : x < l.length
  · have hrev : (l.reverse ++ r)[x]? = l[l.length - 1 - x]? := by
      rw [List.getElem?_append_left (by simpa using hx), List.getElem?_reverse hx]
    rw [hrev]
    split
    · rw [List.getElem?_append_left (by omega)]
      congr 1
      omega
    · -- the place in the middle is its own partner
      rw [List.getElem?_append_left hx]
      congr 1
      omega
  · rw [if_neg (by omega), List.getElem?_append_right (by omega),
      List.getElem?_append_right (by simpa using hx), List.length_reverse]

end KernelC
