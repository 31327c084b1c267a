import Mathlib.Data.Option.Basic

/-!
# Calls with answers

`call s o` is the answer to the call `o` in the state `s` and the state after it;
`none` when the call does not return. `play` issues calls one after another.

`Refines call call' I f` says that a system, seen through `f`, is another one: from a
state that meets `I`, a call returns exactly where the other does, with the same answer,
to the image of the state. Then all sequences of calls are answered alike
(`Refines.play`), and two states with the same image cannot be told apart
(`Refines.answers_eq`).

`tally` adds up what each call of a sequence costs, for a quantity that is the same before
and after a call but for that cost (`tally_balance`).
-/

namespace KernelC

variable {σ τ ω α : Type*}

/-- The answers to the calls `os`, and the state after the last. -/
def play (call : σ → ω → Option (α × σ)) : σ → List ω → Option (List α × σ)
  | s, [] => some ([], s)
  | s, o :: os => (call s o).bind fun r => (play call r.2 os).map fun t => (r.1 :: t.1, t.2)

variable {call : σ → ω → Option (α × σ)} {call' : τ → ω → Option (α × τ)}

theorem play_cons_eq_some {s t : σ} {o : ω} {os : List ω} {as : List α} :
    play call s (o :: os) = some (as, t) ↔
      ∃ a s' as', call s o = some (a, s') ∧ play call s' os = some (as', t) ∧ as = a :: as' := by
  rw [play, Option.bind_eq_some_iff]
  constructor
  · rintro ⟨⟨a, s'⟩, hcall, hrest⟩
    obtain ⟨⟨as', t'⟩, hplay, heq⟩ := Option.map_eq_some_iff.mp hrest
    cases heq
    exact ⟨a, s', as', hcall, hplay, rfl⟩
  · rintro ⟨a, s', as', hcall, hplay, rfl⟩
    exact ⟨(a, s'), hcall, by rw [hplay]; rfl⟩

/-- What every call keeps, a sequence of calls keeps. -/
theorem play_invariant {I : σ → Prop} (hstep : ∀ s o r, I s → call s o = some r → I r.2)
    {s t : σ} {os : List ω} {as : List α} (hplay : play call s os = some (as, t)) (hs : I s) :
    I t := by
  induction os generalizing s as with
  | nil =>
    cases hplay
    exact hs
  | cons o os ih =>
    obtain ⟨a, s', as', hcall, hrest, -⟩ := play_cons_eq_some.mp hplay
    exact ih hrest (hstep s o (a, s') hs hcall)

/-! ## One system seen as another -/

structure Refines (call : σ → ω → Option (α × σ)) (call' : τ → ω → Option (α × τ))
    (I : σ → Prop) (f : σ → τ) : Prop where
  keeps : ∀ s o r, I s → call s o = some r → I r.2
  same : ∀ s o, I s → (call s o).map (Prod.map id f) = call' (f s) o

variable {I : σ → Prop} {f : σ → τ}

theorem Refines.play (h : Refines call call' I f) {s : σ} (hs : I s) (os : List ω) :
    (play call s os).map (Prod.map id f) = KernelC.play call' (f s) os := by
  induction os generalizing s with
  | nil => rfl
  | cons o os ih =>
    rw [KernelC.play, KernelC.play, ← h.same s o hs]
    cases hcall : call s o with
    | none => rfl
    | some r =>
      simp only [Option.bind_some, Option.map_some, Prod.map_fst, Prod.map_snd, id_eq, ←
        ih (h.keeps s o r hs hcall), Option.map_map]
      rfl

/-- States with the same image answer alike, whatever is asked of them. -/
theorem Refines.answers_eq (h : Refines call call' I f) {s s' : σ} (hs : I s) (hs' : I s')
    (heq : f s = f s') (os : List ω) :
    (KernelC.play call s os).map Prod.fst = (KernelC.play call s' os).map Prod.fst := by
  have hfst : ∀ t, I t → (KernelC.play call t os).map Prod.fst =
      (KernelC.play call' (f t) os).map Prod.fst := fun t ht => by
    rw [← h.play ht os, Option.map_map]
    rfl
  rw [hfst s hs, hfst s' hs', heq]

/-! ## Sums along a sequence of calls -/

/-- The sum of what each of the calls costs in the state where it is issued. -/
def tally (call : σ → ω → Option (α × σ)) (cost : σ → ω → Nat) : σ → List ω → Nat
  | _, [] => 0
  | s, o :: os => cost s o + ((call s o).map fun r => tally call cost r.2 os).getD 0

theorem tally_balance {cost : σ → ω → Nat} (measure : σ → Nat)
    (hkeep : ∀ s o r, I s → call s o = some r → I r.2)
    (hstep : ∀ s o r, I s → call s o = some r → measure r.2 + cost s o = measure s)
    {s t : σ} {os : List ω} {as : List α} (hplay : play call s os = some (as, t)) (hs : I s) :
    measure t + tally call cost s os = measure s := by
  induction os generalizing s as with
  | nil =>
    cases hplay
    rfl
  | cons o os ih =>
    obtain ⟨a, s', as', hcall, hrest, -⟩ := play_cons_eq_some.mp hplay
    have hone := hstep s o (a, s') hs hcall
    have hmore := ih hrest (hkeep s o (a, s') hs hcall)
    simp only [tally, hcall, Option.map_some, Option.getD_some]
    simp only at hone hmore
    omega

end KernelC
