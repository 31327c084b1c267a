import KernelC.Lib.BlockList
import Mathlib.Data.List.Chain
import Mathlib.Data.List.Sort

/-!
# Coalesced tilings

A tiling is coalesced when no two neighbours are both free. Its free blocks are
then exactly the maximal gaps between the used ones (`Coalesced.free_iff_gap`),
so a coalesced tiling is determined by its used blocks (`Coalesced.unique`).
-/

namespace KernelC

/-- No two neighbours are both free. -/
def Coalesced (l : List Block) : Prop :=
  l.IsChain fun a b => ¬ (a.free = true ∧ b.free = true)

/-- `[a, e)` is a maximal gap in `[lo, hi)` between the blocks `used`. -/
structure Gap (H lo hi : Nat) (used : Block → Prop) (a e : Nat) : Prop where
  nonempty : a < e
  clear : ∀ b, used b → b.addr + H + b.size ≤ a ∨ e ≤ b.addr
  left : a = lo ∨ ∃ b, used b ∧ b.addr + H + b.size = a
  right : e = hi ∨ ∃ b, used b ∧ b.addr = e

variable {H lo hi : Nat} {l r : List Block} {b : Block}

/-- Only the flags count. -/
theorem Coalesced.congr (h : Coalesced l) (hflags : r.map Block.free = l.map Block.free) :
    Coalesced r := by
  have hmap : ∀ k : List Block, Coalesced k ↔
      (k.map Block.free).IsChain fun a b => ¬ (a = true ∧ b = true) :=
    fun k => (List.isChain_map Block.free (R := fun a b => ¬ (a = true ∧ b = true))).symm
  rw [hmap] at h ⊢
  rwa [hflags]

theorem coalesced_split :
    Coalesced (l ++ b :: r) ↔ Coalesced (l ++ [b]) ∧ Coalesced (b :: r) :=
  List.isChain_split

/-- A used block separates what is before it from what is behind it. -/
theorem coalesced_used (hb : b.free = false) :
    Coalesced (l ++ b :: r) ↔ Coalesced l ∧ Coalesced r := by
  have hright : Coalesced (b :: r) ↔ Coalesced r := by
    cases r with
    | nil => simp [Coalesced]
    | cons c r => simp [Coalesced, List.isChain_cons_cons, hb]
  have hleft : Coalesced (l ++ [b]) ↔ Coalesced l := by
    unfold Coalesced
    rw [List.isChain_append]
    simp [hb]
  rw [coalesced_split, hright, hleft]

/-- A run of free blocks in a coalesced tiling is a single block. -/
theorem Coalesced.free_run {w t : List Block} (h : Coalesced (l ++ (w ++ t)))
    (hfree : ∀ b ∈ w, b.free = true) (hne : w ≠ []) : ∃ b, w = [b] := by
  match w, hne with
  | [b], _ => exact ⟨b, rfl⟩
  | b :: c :: w, _ =>
    have hpair := (List.isChain_cons_cons.mp (coalesced_split.mp h).2).1
    exact absurd ⟨hfree b (by simp), hfree c (by simp)⟩ hpair

/-- A boundary inside the region is where a block starts. -/
theorem Tiles.starts (h : Tiles H lo l hi) {x : Nat} (hx : x < hi)
    (hb : x = lo ∨ ∃ b ∈ l, b.addr + H + b.size = x) : ∃ c ∈ l, c.addr = x := by
  have hfirst : ∀ {lo l}, Tiles H lo l hi → lo < hi → ∃ c ∈ l, c.addr = lo := by
    intro lo l h hlt
    cases l with
    | nil => exact absurd h (Nat.ne_of_lt hlt)
    | cons c l => exact ⟨c, List.mem_cons_self, h.1⟩
  rcases hb with rfl | ⟨b, hb, rfl⟩
  · exact hfirst h hx
  · obtain ⟨u, v, rfl⟩ := List.append_of_mem hb
    obtain ⟨mid, -, hmid⟩ := tiles_append.mp h
    obtain ⟨c, hc, haddr⟩ := hfirst hmid.2 hx
    exact ⟨c, by simp [hc], haddr⟩

/-- What a coalesced tiling has before a free block is used, and ends there. -/
theorem Coalesced.left (hc : Coalesced (l ++ b :: r)) (h : Tiles H lo (l ++ b :: r) hi)
    (hb : b.free = true) :
    b.addr = lo ∨ ∃ c ∈ l, c.free = false ∧ c.addr + H + c.size = b.addr := by
  cases l using List.reverseRecOn with
  | nil => exact .inl h.1
  | append_singleton l c =>
    refine .inr ⟨c, by simp, ?_, ?_⟩
    · have hc' : Coalesced (l ++ c :: b :: r) := by simpa using hc
      have hne := (List.isChain_cons_cons.mp (coalesced_split.mp hc').2).1
      simpa [hb] using hne
    · obtain ⟨mid, -, hmid⟩ := tiles_append.mp (by simpa using h)
      exact hmid.2.1.symm

/-- What it has behind a free block is used, and starts there. -/
theorem Coalesced.right (hc : Coalesced (l ++ b :: r)) (h : Tiles H lo (l ++ b :: r) hi)
    (hb : b.free = true) :
    b.addr + H + b.size = hi ∨ ∃ c ∈ r, c.free = false ∧ c.addr = b.addr + H + b.size := by
  obtain ⟨mid, -, hmid⟩ := tiles_append.mp h
  cases r with
  | nil => exact .inl hmid.2
  | cons c r =>
    refine .inr ⟨c, by simp, ?_, hmid.2.1⟩
    have hne := (List.isChain_cons_cons.mp (coalesced_split.mp hc).2).1
    simpa [hb] using hne

/-- The free blocks of a coalesced tiling are the maximal gaps between its used
blocks. -/
theorem Coalesced.free_iff_gap (hc : Coalesced l) (h : Tiles H lo l hi) (hH : 0 < H) {a e : Nat} :
    (∃ b ∈ l, b.free = true ∧ b.addr = a ∧ b.addr + H + b.size = e) ↔
      Gap H lo hi (fun b => b ∈ l ∧ b.free = false) a e := by
  constructor
  · rintro ⟨b, hb, hfree, rfl, rfl⟩
    have hne : ∀ c, c.free = false → c ≠ b := by
      rintro c hused rfl
      exact absurd (hused.symm.trans hfree) (by decide)
    refine ⟨by omega, fun c hu => ?_, ?_, ?_⟩
    · have := h.apart hu.1 hb (hne c hu.2)
      omega
    · obtain ⟨u, v, rfl⟩ := List.append_of_mem hb
      rcases hc.left h hfree with hlo | ⟨c, hmem, hused, hend⟩
      · exact .inl hlo
      · exact .inr ⟨c, ⟨by simp [hmem], hused⟩, hend⟩
    · obtain ⟨u, v, rfl⟩ := List.append_of_mem hb
      rcases hc.right h hfree with hhi | ⟨c, hmem, hused, hstart⟩
      · exact .inl hhi
      · exact .inr ⟨c, ⟨by simp [hmem], hused⟩, hstart⟩
  · intro hgap
    have hlt := hgap.nonempty
    have hehi : e ≤ hi := by
      rcases hgap.right with rfl | ⟨c, hu, rfl⟩
      · exact Nat.le_refl _
      · have := h.bounds hu.1
        omega
    obtain ⟨b, hb, rfl⟩ := h.starts (by omega : a < hi)
      (hgap.left.imp_right fun ⟨c, hu, hend⟩ => ⟨c, hu.1, hend⟩)
    have hfree : b.free = true := by
      by_contra hused
      have := hgap.clear b ⟨hb, by simpa using hused⟩
      omega
    refine ⟨b, hb, hfree, rfl, ?_⟩
    -- the block cannot end before the gap does, nor after it
    rcases Nat.lt_trichotomy (b.addr + H + b.size) e with hlt' | heq | hgt
    · obtain ⟨u, v, rfl⟩ := List.append_of_mem hb
      rcases hc.right h hfree with hhi | ⟨c, hmem, hused, hstart⟩
      · omega
      · have := hgap.clear c ⟨by simp [hmem], hused⟩
        omega
    · exact heq
    · have hbd := h.bounds hb
      rcases hgap.right with rfl | ⟨c, hu, rfl⟩
      · omega
      · have hne : c ≠ b := by
          rintro rfl
          exact absurd (hu.2.symm.trans hfree) (by decide)
        have := h.apart hu.1 hb hne
        omega

/-- Two coalesced tilings of a region with the same used blocks are equal. -/
theorem Coalesced.unique (hc : Coalesced l) (h : Tiles H lo l hi) (hc' : Coalesced r)
    (h' : Tiles H lo r hi) (hH : 0 < H)
    (hused : ∀ b, b.free = false → (b ∈ l ↔ b ∈ r)) : l = r := by
  have hirr : Std.Irrefl fun a b : Block => a.addr + H + a.size ≤ b.addr := ⟨fun b => by omega⟩
  have hanti : Std.Antisymm fun a b : Block => a.addr + H + a.size ≤ b.addr :=
    ⟨fun a b h1 h2 => by omega⟩
  have hsets : (fun b => b ∈ l ∧ b.free = false) = fun b => b ∈ r ∧ b.free = false := by
    funext b
    exact propext (and_congr_left fun hb => hused b hb)
  refine h.pairwise.eq_of_mem_iff h'.pairwise fun b => ?_
  cases hb : b.free with
  | false => exact hused b hb
  | true =>
    -- a free block is a gap, and the gaps are the same
    have hgap := hc.free_iff_gap h hH (a := b.addr) (e := b.addr + H + b.size)
    rw [hsets, ← hc'.free_iff_gap h' hH] at hgap
    have hsame : ∀ {k : List Block}, b ∈ k ↔
        ∃ c ∈ k, c.free = true ∧ c.addr = b.addr ∧ c.addr + H + c.size = b.addr + H + b.size := by
      intro k
      constructor
      · exact fun hk => ⟨b, hk, hb, rfl, rfl⟩
      · rintro ⟨c, hk, hfree, haddr, hend⟩
        have hcb : c = b := by
          cases b
          cases c
          simp only [Block.mk.injEq] at *
          exact ⟨haddr, by omega, hfree.trans hb.symm⟩
        rwa [hcb] at hk
    rw [hsame, hsame]
    exact hgap

end KernelC
