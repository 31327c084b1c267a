import Mathlib.Logic.Basic

/-!
# Computations that only read

A computation of type `Reading σ κ α` depends on a store `σ`: it has a value, and the
places (of type `κ`) that it looks at, in order. Composition looks at the places of
both parts, the second chosen by the value of the first.

`Within P x s` says that every place that `x` looks at in the store `s` satisfies
`P`. The rules are equivalences, one per way to build a computation, so that what a
computation reads unfolds into conditions on the places of its parts.
-/

namespace KernelC

structure Reading (σ κ : Type*) (α : Type*) where
  value : σ → α
  touched : σ → List κ

namespace Reading

variable {σ κ α β : Type} {P : κ → Prop} {s : σ}

instance : Monad (Reading σ κ) where
  pure a := { value := fun _ => a, touched := fun _ => [] }
  bind x f :=
    { value := fun s => (f (x.value s)).value s
      touched := fun s => x.touched s ++ (f (x.value s)).touched s }

def Within (P : κ → Prop) (x : Reading σ κ α) (s : σ) : Prop := ∀ k ∈ x.touched s, P k

@[simp] theorem value_pure (a : α) : (pure a : Reading σ κ α).value s = a := rfl

@[simp] theorem value_bind (x : Reading σ κ α) (f : α → Reading σ κ β) :
    (x >>= f).value s = (f (x.value s)).value s := rfl

@[simp] theorem value_ite (c : Prop) [Decidable c] (x y : Reading σ κ α) :
    (if c then x else y).value s = if c then x.value s else y.value s :=
  apply_ite (fun x : Reading σ κ α => x.value s) c x y

@[simp] theorem within_pure (a : α) : Within P (pure a : Reading σ κ α) s := by
  intro k hk
  cases hk

@[simp] theorem within_bind (x : Reading σ κ α) (f : α → Reading σ κ β) :
    Within P (x >>= f) s ↔ Within P x s ∧ Within P (f (x.value s)) s :=
  List.forall_mem_append

@[simp] theorem within_ite (c : Prop) [Decidable c] (x y : Reading σ κ α) :
    Within P (if c then x else y) s ↔ (c → Within P x s) ∧ (¬ c → Within P y s) := by
  split
  · next hc => exact ⟨fun h => ⟨fun _ => h, fun hno => absurd hc hno⟩, fun h => h.1 hc⟩
  · next hc => exact ⟨fun h => ⟨fun hno => absurd hno hc, fun _ => h⟩, fun h => h.2 hc⟩

end Reading

end KernelC
