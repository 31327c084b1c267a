import Mathlib.Data.List.Infix

/-!
# A level that is raised, lowered and reset

A level starts at 0. A move raises it by one, lowers it by one, though never below 0,
or puts it back to 0. Where it stands after a sequence of moves is decided by the
stretches at the end of the sequence that have no reset in them: it is at most `n` if
and only if none of these has more than `n` more ups than downs (`level_le_iff`).
-/

namespace KernelC

inductive Move where
  | up
  | down
  | reset
  | stay
deriving DecidableEq

def Move.apply (n : Nat) : Move → Nat
  | .up => n + 1
  | .down => n - 1
  | .reset => 0
  | .stay => n

/-- The level after the moves `w`. -/
def level (w : List Move) : Nat := w.foldl Move.apply 0

theorem level_append_singleton (w : List Move) (x : Move) : level (w ++ [x]) = x.apply (level w) := by
  rw [level, List.foldl_append]
  rfl

/-- What holds of the suffixes of `w ++ [x]` holds of the empty list and of the suffixes of
`w`, each with `x` behind it. -/
theorem forall_suffix_append_singleton {α : Type*} {w : List α} {x : α} {P : List α → Prop} :
    (∀ s, s <:+ w ++ [x] → P s) ↔ P [] ∧ ∀ s, s <:+ w → P (s ++ [x]) := by
  constructor
  · intro h
    refine ⟨h [] (List.nil_suffix), fun s hs => h _ ?_⟩
    obtain ⟨t, rfl⟩ := hs
    exact ⟨t, (List.append_assoc t s [x]).symm⟩
  · rintro ⟨hnil, hcons⟩ s hs
    rcases List.suffix_concat_iff.mp hs with rfl | ⟨t, rfl, ht⟩
    · exact hnil
    · exact hcons t ht

theorem reset_notMem_append_singleton {s : List Move} {x : Move} (hx : x ≠ .reset) :
    .reset ∉ s ++ [x] ↔ .reset ∉ s := by
  rw [List.mem_append, List.mem_singleton, or_iff_left hx.symm]

theorem level_le_iff (w : List Move) (n : Nat) :
    level w ≤ n ↔ ∀ s, s <:+ w → .reset ∉ s → s.count .up ≤ s.count .down + n := by
  induction w using List.reverseRecOn generalizing n with
  | nil =>
    refine iff_of_true (Nat.zero_le n) fun s hs _ => ?_
    rw [List.suffix_nil.mp hs]
    exact Nat.zero_le _
  | append_singleton w x ih =>
    rw [level_append_singleton, forall_suffix_append_singleton]
    refine Iff.trans ?_ (and_iff_right fun _ => Nat.zero_le _).symm
    by_cases hx : x = .reset
    · subst hx
      refine iff_of_true (Nat.zero_le n) fun s _ hno => absurd ?_ hno
      exact List.mem_append_right _ List.mem_cons_self
    simp only [reset_notMem_append_singleton hx, List.count_append]
    cases x with
    | up =>
      show level w + 1 ≤ n ↔ ∀ s, s <:+ w → .reset ∉ s → s.count .up + 1 ≤ s.count .down + 0 + n
      cases n with
      | zero =>
        refine iff_of_false (Nat.not_succ_le_zero _) fun h => ?_
        exact Nat.not_succ_le_zero 0 (h [] List.nil_suffix (by simp))
      | succ n =>
        rw [Nat.succ_le_succ_iff, ih]
        simp only [Nat.add_zero, ← Nat.add_assoc, Nat.succ_le_succ_iff]
    | down =>
      show level w - 1 ≤ n ↔ ∀ s, s <:+ w → .reset ∉ s → s.count .up + 0 ≤ s.count .down + 1 + n
      rw [Nat.sub_le_iff_le_add, ih]
      simp only [Nat.add_zero, Nat.add_comm n 1, Nat.add_assoc]
    | reset => exact absurd rfl hx
    | stay => exact ih n

end KernelC
