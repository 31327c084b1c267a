import Mathlib.Data.List.Perm.Subperm

/-!
# Queues in which nobody is overtaken twice

Those who wait stand in a queue. The first one is served and goes to the end; new ones join
anywhere, and anybody may leave. `Turns q served joined q'` says that such a history leads from
`q` to `q'`.

* `Turns.overtake`: while someone waits, those who are served are different from each other,
  and each stood further ahead or joined in the meantime.
* `Turns.bound`: so the wait is bounded.
-/

namespace KernelC

variable {α : Type*}

/-- From the queue `q` to `q'`, with who was served and who joined, in order. -/
inductive Turns : List α → List α → List α → List α → Prop
  | nil (q : List α) : Turns q [] [] q
  | serve {x : α} {r served joined q' : List α} :
      Turns (r ++ [x]) served joined q' → Turns (x :: r) (x :: served) joined q'
  | join {x : α} {a b served joined q' : List α} :
      Turns (a ++ x :: b) served joined q' → Turns (a ++ b) served (x :: joined) q'
  | leave {q r served joined q' : List α} :
      r.Sublist q → Turns r served joined q' → Turns q served joined q'

/-- Those who stand further ahead than `u`. -/
def ahead [DecidableEq α] (u : α) (q : List α) : List α := q.takeWhile (· ≠ u)

namespace Turns

variable {u : α} {q served joined q' : List α}

/-- Nobody comes in without joining. -/
theorem subset (h : Turns q served joined q') : q' ⊆ q ++ joined := by
  induction h with
  | nil q => simp
  | serve _ ih =>
    intro v hv
    have := ih hv
    simp only [List.mem_append, List.mem_cons, List.not_mem_nil, or_false] at this ⊢
    tauto
  | join _ ih =>
    intro v hv
    have := ih hv
    simp only [List.mem_append, List.mem_cons] at this ⊢
    tauto
  | leave hsub _ ih =>
    intro v hv
    have := ih hv
    simp only [List.mem_append] at this ⊢
    exact this.imp_left fun hr => hsub.subset hr

variable [DecidableEq α]

theorem ahead_split {a b : List α} (hu : u ∉ a) : ahead u (a ++ u :: b) = a := by
  have hne : ∀ v ∈ a, decide (v ≠ u) = true := by
    intro v hv
    rw [decide_eq_true_eq]
    rintro rfl
    exact hu hv
  rw [ahead, List.takeWhile_append_of_pos hne]
  simp

theorem ahead_length_lt (hu : u ∈ q) : (ahead u q).length < q.length := by
  obtain ⟨a, b, rfl, hua⟩ := List.eq_append_cons_of_mem hu
  rw [ahead_split hua, List.length_append, List.length_cons]
  omega

/-- Those who leave are not ahead any more. -/
theorem ahead_sublist {r : List α} (hsub : r.Sublist q) (hd : q.Nodup) (hu : u ∈ r) :
    ahead u r ⊆ ahead u q := by
  obtain ⟨a, b, rfl, hua⟩ := List.eq_append_cons_of_mem (hsub.subset hu)
  obtain ⟨r₁, r₂, rfl, h₁, h₂⟩ := List.sublist_append_iff.mp hsub
  have hur₁ : u ∉ r₁ := fun hm => hua (h₁.subset hm)
  have hur₂ : u ∈ r₂ := (List.mem_append.mp hu).resolve_left hur₁
  have hub : u ∉ b := (List.nodup_cons.mp (List.nodup_append.mp hd).2.1).1
  cases h₂ with
  | cons _ h₂ => exact absurd (h₂.subset hur₂) hub
  | cons_cons _ h₂ =>
    rw [ahead_split hur₁, ahead_split hua]
    exact h₁.subset

theorem ahead_insert {x : α} (a b : List α) : ahead u (a ++ x :: b) ⊆ x :: ahead u (a ++ b) := by
  induction a with
  | nil =>
    by_cases hx : x = u
    · simp [ahead, hx]
    · simp [ahead, hx]
  | cons y a ih =>
    by_cases hy : y = u
    · simp [ahead, hy]
    · have hstep : ∀ r : List α, ahead u (y :: r) = y :: ahead u r := by
        intro r
        simp [ahead, hy]
      rw [List.cons_append, List.cons_append, hstep, hstep]
      intro v hv
      rcases List.mem_cons.mp hv with rfl | hv
      · simp
      · have := ih hv
        simp only [List.mem_cons] at this ⊢
        tauto

/-- While `u` waits nobody is served twice, and only those who were ahead of `u` or have joined
since. -/
theorem overtake (h : Turns q served joined q') (hd : (q ++ joined).Nodup) (hq : u ∈ q)
    (hq' : u ∈ q') (hu : u ∉ served) :
    served.Nodup ∧ served ⊆ ahead u q ++ joined := by
  induction h with
  | nil q => exact ⟨List.nodup_nil, List.nil_subset _⟩
  | @serve x r served joined q' h ih =>
    obtain ⟨hxu, hu⟩ : u ≠ x ∧ u ∉ served := by simpa using hu
    have hr : u ∈ r := (List.mem_cons.mp hq).resolve_left hxu
    have hperm : (r ++ [x] ++ joined).Perm (x :: r ++ joined) :=
      (List.perm_append_singleton x r).append_right joined
    obtain ⟨hnodup, hsub⟩ := ih (hperm.nodup_iff.mpr hd) (List.mem_append_left _ hr) hq' hu
    obtain ⟨a, b, rfl, hua⟩ := List.eq_append_cons_of_mem hr
    rw [List.append_assoc, List.cons_append, ahead_split hua] at hsub
    have hahead : ahead u (x :: (a ++ u :: b)) = x :: a :=
      ahead_split (a := x :: a) (by simp [hxu, hua])
    rw [hahead]
    -- `x` is behind `u` now, and does not join again
    have hx : x ∉ a ++ joined := by
      rw [List.cons_append, List.nodup_cons] at hd
      have hnot := hd.1
      simp only [List.mem_append] at hnot ⊢
      tauto
    exact ⟨List.nodup_cons.mpr ⟨fun hm => hx (hsub hm), hnodup⟩, List.cons_subset_cons x hsub⟩
  | @join x a b served joined q' h ih =>
    have hperm : (a ++ x :: b ++ joined).Perm (a ++ b ++ x :: joined) :=
      (List.perm_middle.append_right joined).trans List.perm_middle.symm
    have hmem : u ∈ a ++ x :: b := by
      simp only [List.mem_append, List.mem_cons] at hq ⊢
      tauto
    obtain ⟨hnodup, hsub⟩ := ih (hperm.nodup_iff.mpr hd) hmem hq' hu
    refine ⟨hnodup, fun v hv => ?_⟩
    rcases List.mem_append.mp (hsub hv) with ha | hj
    · rcases List.mem_cons.mp (ahead_insert a b ha) with rfl | ha
      · simp
      · exact List.mem_append_left _ ha
    · exact List.mem_append_right _ (List.mem_cons_of_mem x hj)
  | @leave q r served joined q' hleave h ih =>
    have hnot : u ∉ joined := fun hm => (List.nodup_append.mp hd).2.2 u hq u hm rfl
    have hr : u ∈ r := (List.mem_append.mp (h.subset hq')).resolve_right hnot
    obtain ⟨hnodup, hsub⟩ := ih (hd.sublist (hleave.append_right joined)) hr hq' hu
    have hahead := ahead_sublist hleave (List.nodup_append.mp hd).1 hr
    exact ⟨hnodup, fun v hv => List.mem_append.mpr
      ((List.mem_append.mp (hsub hv)).imp_left fun ha => hahead ha)⟩

/-- So `u` waits no longer than for those who were ahead and those who have joined. -/
theorem bound (h : Turns q served joined q') (hd : (q ++ joined).Nodup) (hq : u ∈ q)
    (hq' : u ∈ q') (hu : u ∉ served) : served.length < q.length + joined.length := by
  obtain ⟨hnodup, hsub⟩ := h.overtake hd hq hq' hu
  have hlen := (List.subperm_of_subset hnodup hsub).length_le
  have hlt := ahead_length_lt hq
  rw [List.length_append] at hlen
  omega

end Turns

end KernelC
