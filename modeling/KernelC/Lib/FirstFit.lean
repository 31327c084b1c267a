import KernelC.Lib.Gaps
import Mathlib.Data.Set.Insert

/-!
# First fit

The ideal first-fit allocator knows the live blocks of a region and nothing else. A request is
served from the lowest maximal gap between them that holds it, and refused only if none does
(`Serves`). Its answers depend on the requests alone (`Serves.unique`).
-/

namespace KernelC

/-- A region from `lo` to `hi`; each block has a header, and what is left of a gap stays with
the block if it is smaller than `least`. -/
structure Arena where
  header : Nat
  least : Nat
  lo : Nat
  hi : Nat

inductive Request
  | take (size : Nat)
  | drop (p : Nat)
deriving DecidableEq

namespace Arena

variable (P : Arena)

/-- `[a, e)` is a gap between the blocks `A` that holds `size` bytes and their header. -/
structure Room (A : Set Block) (size a e : Nat) : Prop where
  gap : Gap P.header P.lo P.hi (· ∈ A) a e
  inside : e ≤ P.hi
  fits : a + P.header + size ≤ e

/-- `b` is the start of the lowest gap that holds `size` bytes, or all of it. -/
structure Carved (A : Set Block) (size : Nat) (b : Block) : Prop where
  used : b.free = false
  room : ∃ e, P.Room A size b.addr e ∧
    b.size = if e - (b.addr + P.header) < size + P.least then e - (b.addr + P.header) else size
  lowest : ∀ a e, P.Room A size a e → b.addr ≤ a

/-- From the live blocks `A` the requests lead to the live blocks `A'`, with these answers. -/
inductive Serves : Set Block → List Request → List Nat → Set Block → Prop
  | done (A : Set Block) : Serves A [] [] A
  | refused {A A' : Set Block} {size : Nat} {rs : List Request} {ps : List Nat} :
      (∀ a e, ¬ P.Room A size a e) → Serves A rs ps A' →
      Serves A (.take size :: rs) (0 :: ps) A'
  | carved {A A' : Set Block} {size : Nat} {b : Block} {rs : List Request} {ps : List Nat} :
      P.Carved A size b → Serves (insert b A) rs ps A' →
      Serves A (.take size :: rs) ((b.addr + P.header) :: ps) A'
  | dropped {A A' : Set Block} {p : Nat} {rs : List Request} {ps : List Nat} :
      Serves {b | b ∈ A ∧ b.addr + P.header ≠ p} rs ps A' → Serves A (.drop p :: rs) ps A'

variable {P : Arena} {A A' A₂ : Set Block} {size : Nat} {b c : Block}

/-- Where a gap starts decides where it ends. -/
theorem Room.unique {a e e' : Nat} (h : P.Room A size a e) (h' : P.Room A size a e') : e = e' := by
  have hle : ∀ {e e'}, P.Room A size a e → P.Room A size a e' → e' ≤ e := by
    intro e e' h h'
    have hlt := h.gap.nonempty
    rcases h.gap.right with rfl | ⟨b, hb, rfl⟩
    · exact h'.inside
    · rcases h'.gap.clear b hb with hend | hstart
      · omega
      · exact hstart
  exact Nat.le_antisymm (hle h' h) (hle h h')

theorem Carved.unique (h : P.Carved A size b) (h' : P.Carved A size c) : b = c := by
  obtain ⟨e, he, hsize⟩ := h.room
  obtain ⟨e', he', hsize'⟩ := h'.room
  have haddr : b.addr = c.addr :=
    Nat.le_antisymm (h.lowest _ _ he') (h'.lowest _ _ he)
  rw [← haddr] at he' hsize'
  obtain rfl := he.unique he'
  have hfree : b.free = c.free := h.used.trans h'.used.symm
  cases b
  cases c
  simp only [Block.mk.injEq] at *
  exact ⟨haddr, hsize.trans hsize'.symm, hfree⟩

/-- The requests determine the answers and the live blocks. -/
theorem Serves.unique {rs : List Request} {ps ps' : List Nat} (h : P.Serves A rs ps A')
    (h' : P.Serves A rs ps' A₂) : ps = ps' ∧ A' = A₂ := by
  induction h generalizing ps' with
  | done A =>
    cases h'
    exact ⟨rfl, rfl⟩
  | refused hno _ ih =>
    cases h' with
    | refused _ hrest =>
      obtain ⟨rfl, rfl⟩ := ih hrest
      exact ⟨rfl, rfl⟩
    | carved hc _ =>
      obtain ⟨e, he, -⟩ := hc.room
      exact absurd he (hno _ _)
  | carved hc _ ih =>
    cases h' with
    | refused hno _ =>
      obtain ⟨e, he, -⟩ := hc.room
      exact absurd he (hno _ _)
    | carved hc' hrest =>
      obtain rfl := hc.unique hc'
      obtain ⟨rfl, rfl⟩ := ih hrest
      exact ⟨rfl, rfl⟩
  | dropped _ ih =>
    cases h' with
    | dropped hrest => exact ih hrest

end Arena

end KernelC
