import Mathlib.Data.List.Pairwise

/-!
# Linked lists of blocks that tile a region

A boundary-tag allocator keeps its blocks in a doubly linked list in address
order. Each block is a header of `H` bytes followed by its payload, and the
blocks cover a region without a gap. The two halves of that picture are
separate here.

* `Linked P p l n`: the blocks `l` are stored one after another, where
  `P b q k` says that `b` is stored with the links `q` (back) and `k`
  (forward). The block before the list is `p`, the one after it is `n`.
* `Tiles H lo l hi`: the blocks `l` cover `[lo, hi)`.

* `Spread H lo e l`: the weaker picture, of blocks from `lo` on that need not lie
  in address order nor apart: only their headers do not overlap, and a block that
  took over all those linked behind it would end at `e` or before.

The first two are cut and joined at any place (`linked_append`, `tiles_append`),
and a window of blocks in the middle is exchanged for another one by
`Linked.replace` and `Tiles.replace`. A tiling is spread (`Tiles.spread`).
-/

namespace KernelC

/-- A block: the address of its header, the size of its payload, and whether
it is free. -/
structure Block where
  addr : Nat
  size : Nat
  free : Bool
deriving DecidableEq

namespace Block

/-- The address of the first block, or `n` when there is none. -/
def first : List Block → Nat → Nat
  | [], n => n
  | b :: _, _ => b.addr

/-- The address of the last block, or `p` when there is none. -/
def last (p : Nat) : List Block → Nat
  | [] => p
  | b :: l => last b.addr l

@[simp] theorem first_nil (n : Nat) : first [] n = n := rfl

@[simp] theorem first_cons (b : Block) (l : List Block) (n : Nat) :
    first (b :: l) n = b.addr := rfl

@[simp] theorem last_nil (p : Nat) : last p [] = p := rfl

@[simp] theorem last_cons (p : Nat) (b : Block) (l : List Block) :
    last p (b :: l) = last b.addr l := rfl

theorem first_append (l r : List Block) (n : Nat) :
    first (l ++ r) n = first l (first r n) := by
  cases l with
  | nil => rfl
  | cons b l => rfl

theorem last_append (p : Nat) (l r : List Block) :
    last p (l ++ r) = last (last p l) r := by
  induction l generalizing p with
  | nil => rfl
  | cons b l ih => exact ih b.addr

end Block

open Block

/-! ## Links -/

/-- The blocks `l` are stored in this order between the links `p` and `n`. -/
def Linked (P : Block → Nat → Nat → Prop) : Nat → List Block → Nat → Prop
  | _, [], _ => True
  | p, b :: l, n => P b p (first l n) ∧ Linked P b.addr l n

variable {P P' : Block → Nat → Nat → Prop}

@[simp] theorem linked_nil {p n : Nat} : Linked P p [] n := trivial

@[simp] theorem linked_cons {p n : Nat} {b : Block} {l : List Block} :
    Linked P p (b :: l) n ↔ P b p (first l n) ∧ Linked P b.addr l n := Iff.rfl

theorem linked_append {p n : Nat} {l r : List Block} :
    Linked P p (l ++ r) n ↔ Linked P p l (first r n) ∧ Linked P (last p l) r n := by
  induction l generalizing p with
  | nil => simp
  | cons b l ih =>
    simp only [List.cons_append, linked_cons, first_append, last_cons, ih, and_assoc]

/-- A list is stored again where each of its blocks is. -/
theorem Linked.mono {p n : Nat} {l : List Block} (h : Linked P p l n)
    (hP : ∀ b ∈ l, ∀ q k, P b q k → P' b q k) : Linked P' p l n := by
  induction l generalizing p with
  | nil => trivial
  | cons b l ih =>
    exact ⟨hP b List.mem_cons_self _ _ h.1,
      ih h.2 fun c hc => hP c (List.mem_cons_of_mem _ hc)⟩

/-- The block before a list changes: only the first block sees it. -/
theorem Linked.relink {p p' n : Nat} {l : List Block} (h : Linked P p l n)
    (hhead : ∀ b r k, l = b :: r → P b p k → P' b p' k)
    (htail : ∀ b ∈ l.tail, ∀ q k, P b q k → P' b q k) : Linked P' p' l n := by
  cases l with
  | nil => trivial
  | cons b l => exact ⟨hhead b l _ rfl h.1, h.2.mono htail⟩

/-- The blocks `w` in the middle of a list are exchanged for `w'`, which starts
at the same address. -/
theorem Linked.replace {p n : Nat} {l w w' r : List Block}
    (h : Linked P p (l ++ (w ++ r)) n) (hfirst : ∀ k, first w' k = first w k)
    (hl : ∀ b ∈ l, ∀ q k, P b q k → P' b q k)
    (hw : Linked P' (last p l) w' (first r n))
    (hr : Linked P' (last (last p l) w') r n) : Linked P' p (l ++ (w' ++ r)) n := by
  rw [linked_append] at h ⊢
  refine ⟨?_, linked_append.mpr ⟨hw, hr⟩⟩
  have hkeep := h.1.mono hl
  rwa [first_append, ← hfirst, ← first_append] at hkeep

/-! ## Tilings -/

/-- The blocks `l`, each with a header of `H` bytes, cover `[lo, hi)`. -/
def Tiles (H : Nat) : Nat → List Block → Nat → Prop
  | lo, [], hi => lo = hi
  | lo, b :: l, hi => b.addr = lo ∧ Tiles H (b.addr + H + b.size) l hi

variable {H : Nat}

@[simp] theorem tiles_nil {lo hi : Nat} : Tiles H lo [] hi ↔ lo = hi := Iff.rfl

@[simp] theorem tiles_cons {lo hi : Nat} {b : Block} {l : List Block} :
    Tiles H lo (b :: l) hi ↔ b.addr = lo ∧ Tiles H (b.addr + H + b.size) l hi := Iff.rfl

theorem tiles_append {lo hi : Nat} {l r : List Block} :
    Tiles H lo (l ++ r) hi ↔ ∃ mid, Tiles H lo l mid ∧ Tiles H mid r hi := by
  induction l generalizing lo with
  | nil => simp
  | cons b l ih =>
    simp only [List.cons_append, tiles_cons, ih]
    constructor
    · rintro ⟨ha, mid, h1, h2⟩
      exact ⟨mid, ⟨ha, h1⟩, h2⟩
    · rintro ⟨mid, ⟨ha, h1⟩, h2⟩
      exact ⟨ha, mid, h1, h2⟩

theorem Tiles.replace {lo hi : Nat} {l w t r : List Block}
    (h : Tiles H lo (l ++ (w ++ r)) hi) (hw : ∀ a b, Tiles H a w b → Tiles H a t b) :
    Tiles H lo (l ++ (t ++ r)) hi := by
  obtain ⟨a, hl, hrest⟩ := tiles_append.mp h
  obtain ⟨b, hmid, hr⟩ := tiles_append.mp hrest
  exact tiles_append.mpr ⟨a, hl, tiles_append.mpr ⟨b, hw a b hmid, hr⟩⟩

theorem Tiles.length_le {lo hi : Nat} {l : List Block} (h : Tiles H lo l hi) :
    lo + l.length * H ≤ hi := by
  induction l generalizing lo with
  | nil =>
    rw [tiles_nil] at h
    simp only [List.length_nil]
    omega
  | cons b l ih =>
    obtain ⟨ha, hl⟩ := h
    have hrec := ih hl
    rw [List.length_cons, Nat.succ_mul]
    omega

theorem Tiles.bounds {lo hi : Nat} {l : List Block} (h : Tiles H lo l hi) {b : Block}
    (hb : b ∈ l) : lo ≤ b.addr ∧ b.addr + H + b.size ≤ hi := by
  obtain ⟨s, t, rfl⟩ := List.append_of_mem hb
  obtain ⟨mid, hs, ha, ht⟩ := tiles_append.mp h
  have h1 := hs.length_le
  have h2 := ht.length_le
  omega

/-- The blocks of a tiling lie one behind the other. -/
theorem Tiles.pairwise {lo hi : Nat} {l : List Block} (h : Tiles H lo l hi) :
    l.Pairwise fun a b => a.addr + H + a.size ≤ b.addr := by
  induction l generalizing lo with
  | nil => exact .nil
  | cons b l ih =>
    refine List.pairwise_cons.mpr ⟨fun c hc => ?_, ih h.2⟩
    exact (h.2.bounds hc).1

theorem Tiles.nodup {lo hi : Nat} {l : List Block} (h : Tiles H lo l hi) (hH : 0 < H) :
    l.Nodup := by
  refine h.pairwise.imp ?_
  rintro a b hab rfl
  omega

/-- Two blocks of a tiling do not overlap. -/
theorem Tiles.apart {lo hi : Nat} {l : List Block} (h : Tiles H lo l hi) {a b : Block}
    (ha : a ∈ l) (hb : b ∈ l) (hne : a ≠ b) :
    a.addr + H + a.size ≤ b.addr ∨ b.addr + H + b.size ≤ a.addr := by
  have hsym : Std.Symm fun a b : Block =>
      a.addr + H + a.size ≤ b.addr ∨ b.addr + H + b.size ≤ a.addr := ⟨fun _ _ => Or.symm⟩
  have hpair : l.Pairwise fun a b : Block =>
      a.addr + H + a.size ≤ b.addr ∨ b.addr + H + b.size ≤ a.addr :=
    h.pairwise.imp fun hab => Or.inl hab
  exact hpair.forall ha hb hne

/-! ## Spread blocks -/

/-- What the blocks take when they lie end to end. -/
def extent (H : Nat) : List Block → Nat
  | [] => 0
  | b :: l => H + b.size + extent H l

@[simp] theorem extent_nil : extent H [] = 0 := rfl

@[simp] theorem extent_cons (b : Block) (l : List Block) :
    extent H (b :: l) = H + b.size + extent H l := rfl

@[simp] theorem extent_append (l r : List Block) :
    extent H (l ++ r) = extent H l + extent H r := by
  induction l with
  | nil => simp
  | cons b l ih =>
    rw [List.cons_append, extent_cons, extent_cons, ih]
    omega

theorem Tiles.end_eq {lo hi : Nat} {l : List Block} (h : Tiles H lo l hi) :
    hi = lo + extent H l := by
  induction l generalizing lo with
  | nil => exact h.symm
  | cons b l ih =>
    obtain ⟨ha, hl⟩ := h
    have := ih hl
    rw [extent_cons]
    omega

/-- Every block, followed by all the blocks behind it, ends at `e` or before. -/
def Spans (H e : Nat) : List Block → Prop
  | [] => True
  | b :: l => b.addr + extent H (b :: l) ≤ e ∧ Spans H e l

theorem spans_cons {e : Nat} {b : Block} {l : List Block} :
    Spans H e (b :: l) ↔ b.addr + H + b.size + extent H l ≤ e ∧ Spans H e l := by
  rw [Spans, extent_cons, ← Nat.add_assoc, ← Nat.add_assoc]

theorem Spans.bounds {e : Nat} {l r : List Block} {b : Block} (h : Spans H e (l ++ b :: r)) :
    b.addr + H + b.size + extent H r ≤ e := by
  induction l with
  | nil => exact (spans_cons.mp h).1
  | cons c l ih => exact ih h.2

theorem Spans.of_append {e : Nat} {l r : List Block} (h : Spans H e (l ++ r)) : Spans H e r := by
  induction l with
  | nil => exact h
  | cons c l ih => exact ih h.2

/-- What is behind `l` is exchanged for something that is no longer. -/
theorem Spans.replace {e : Nat} {l r t : List Block} (h : Spans H e (l ++ r))
    (hext : extent H t ≤ extent H r) (ht : Spans H e r → Spans H e t) : Spans H e (l ++ t) := by
  induction l with
  | nil => exact ht h
  | cons c l ih =>
    rw [List.cons_append, spans_cons, extent_append] at h ⊢
    exact ⟨by omega, ih h.2⟩

/-- A block is put behind the others. -/
theorem Spans.concat {e : Nat} {l : List Block} {b : Block} (h : Spans H e l)
    (hb : b.addr ≤ e) : Spans H (e + (H + b.size)) (l ++ [b]) := by
  induction l with
  | nil =>
    rw [List.nil_append, spans_cons, extent_nil]
    exact ⟨by omega, trivial⟩
  | cons c l ih =>
    rw [spans_cons] at h
    rw [List.cons_append, spans_cons, extent_append, extent_cons, extent_nil]
    exact ⟨by omega, ih h.2⟩

/-- The headers of `l` do not overlap, and the blocks stay between `lo` and `e`. -/
structure Spread (H lo e : Nat) (l : List Block) : Prop where
  low : ∀ b ∈ l, lo ≤ b.addr
  apart : (l.map Block.addr).Pairwise fun a b => a + H ≤ b ∨ b + H ≤ a
  spans : Spans H e l

namespace Spread

variable {lo e : Nat} {l r t : List Block} {b c : Block}

theorem bounds (h : Spread H lo e l) (hb : b ∈ l) : lo ≤ b.addr ∧ b.addr + H + b.size ≤ e := by
  have h0 := h.low b hb
  obtain ⟨u, v, rfl⟩ := List.append_of_mem hb
  have := h.spans.bounds
  omega

theorem length_le (h : Spread H lo e l) : l.length * H ≤ e := by
  cases l with
  | nil => simp
  | cons b l =>
    have hspan := h.spans.1
    have hext : ∀ k : List Block, k.length * H ≤ extent H k := by
      intro k
      induction k with
      | nil => simp
      | cons c k ih =>
        rw [List.length_cons, Nat.succ_mul, extent_cons]
        omega
    have := hext (b :: l)
    omega

theorem header (h : Spread H lo e (l ++ b :: r)) (hc : c ∈ l ∨ c ∈ r) :
    c.addr + H ≤ b.addr ∨ b.addr + H ≤ c.addr := by
  have hpair := h.apart
  rw [List.map_append, List.map_cons, List.pairwise_middle Or.symm, ← List.map_append] at hpair
  exact ((List.pairwise_cons.mp hpair).1 c.addr
    (List.mem_map_of_mem (List.mem_append.mpr hc))).symm

/-- Some of the headers go. -/
theorem sublist (h : Spread H lo e (l ++ r))
    (hsub : (t.map Block.addr).Sublist (r.map Block.addr)) (hext : extent H t ≤ extent H r)
    (ht : Spans H e r → Spans H e t) : Spread H lo e (l ++ t) := by
  have hle : ((l ++ t).map Block.addr).Sublist ((l ++ r).map Block.addr) := by
    rw [List.map_append, List.map_append]
    exact (List.Sublist.refl _).append hsub
  refine ⟨fun b hb => ?_, h.apart.sublist hle, h.spans.replace hext ht⟩
  obtain ⟨c, hc, haddr⟩ := List.mem_map.mp (hle.subset (List.mem_map_of_mem hb))
  rw [← haddr]
  exact h.low c hc

/-- A header is put where it overlaps no other. -/
theorem insert {e' : Nat} (h : Spread H lo e (l ++ r)) (hb : lo ≤ b.addr)
    (hmiss : ∀ c, c ∈ l ∨ c ∈ r → c.addr + H ≤ b.addr ∨ b.addr + H ≤ c.addr)
    (hspans : Spans H e' (l ++ b :: r)) : Spread H lo e' (l ++ b :: r) := by
  refine ⟨fun c hc => ?_, ?_, hspans⟩
  · rcases List.mem_append.mp hc with hl | hr
    · exact h.low c (by simp [hl])
    · rcases List.mem_cons.mp hr with rfl | hr
      · exact hb
      · exact h.low c (by simp [hr])
  · rw [List.map_append, List.map_cons, List.pairwise_middle Or.symm, ← List.map_append]
    refine List.pairwise_cons.mpr ⟨fun x hx => ?_, h.apart⟩
    obtain ⟨c, hc, rfl⟩ := List.mem_map.mp hx
    exact (hmiss c (List.mem_append.mp hc)).symm

end Spread

/-- Blocks that tile a region are spread. -/
theorem Tiles.spread {lo hi : Nat} {l : List Block} (h : Tiles H lo l hi) :
    Spread H lo hi l := by
  refine ⟨fun b hb => (h.bounds hb).1, ?_, ?_⟩
  · refine List.pairwise_map.mpr (h.pairwise.imp fun hab => ?_)
    omega
  · induction l generalizing lo with
    | nil => trivial
    | cons b l ih =>
      have := h.end_eq
      exact ⟨by rw [h.1]; omega, ih h.2⟩

end KernelC
