import KernelC.Malloc.Blocks

/-!
# What the operations leave alone

Apart from the copy of a moved payload, the allocators write to nothing but
headers: of the blocks that were in the list, and of the one that a split makes.
A byte that no header of the list covers, before and after, keeps its value.

`Clear l x` is that condition, and a byte of a payload meets it for every list
that has the block (`Layout.clear`).
-/

namespace KernelC.Malloc

open Block

variable {magic : Nat} {R : Region} {m : Mem} {s : Heap} {l r w t : List Block} {b : Block}
  {x : Nat}

/-- No header of `l` covers the byte `x`. -/
def Clear (l : List Block) (x : Nat) : Prop := ∀ c ∈ l, x < c.addr ∨ c.addr + 40 ≤ x

theorem clear_append : Clear (l ++ r) x ↔ Clear l x ∧ Clear r x := List.forall_mem_append

theorem clear_cons : Clear (b :: r) x ↔ (x < b.addr ∨ b.addr + 40 ≤ x) ∧ Clear r x :=
  List.forall_mem_cons

/-- A byte of a payload. -/
theorem Layout.clear (h : Layout magic R m l) (hb : b ∈ l) (h1 : b.addr + 40 ≤ x)
    (h2 : x < b.addr + 40 + b.size) : Clear l x := by
  intro c hc
  by_cases hcb : c = b
  · subst hcb
    exact .inr h1
  · have := h.tiles.apart hc hb hcb
    omega

theorem linkPrev_clear {v : Nat} (h : Clear r x) : linkPrev m (first r 0) v x = m x := by
  unfold linkPrev
  cases r with
  | nil => rfl
  | cons c r =>
    rw [first_cons]
    split
    · exact put_of_outside (h c List.mem_cons_self)
    · rfl

/-! ## Splitting and merging -/

theorem splitBlock_clear (h : Layout magic R s.mem (l ++ b :: r)) {req : Nat}
    (hreq : req ≤ b.size) (hx : Clear (l ++ b :: r) x)
    (hx' : Clear (l ++ (cut b req ++ r)) x) :
    (splitBlock magic s b.addr req).mem x = s.mem x := by
  have hbd := h.bounds (b := b) (by simp)
  have hb := h.stored
  have h' : Layout magic R s.mem ((l ++ [b]) ++ r) := by simpa using h
  have hfr := h'.first_cases (b := b) (by simp)
  have hflt := h'.first_lt
  rw [clear_append, clear_cons] at hx
  unfold splitBlock headerToPayload
  rw [hb.size, wadd_eq (by omega), wadd_eq (a := b.addr) (by omega), wadd_eq (by omega)]
  split
  · rfl
  · rename_i hroom
    have hnew : x < b.addr + 40 + req ∨ b.addr + 40 + req + 40 ≤ x := by
      refine hx' ⟨b.addr + 40 + req, b.size - req - 40, true⟩ ?_
      simp [cut, hroom]
    have hnext : get s.mem b.addr .next = first r 0 := hb.next
    simp (disch := omega) only [get_put, get_put_apart, reduceIte, hnext, Nat.mod_eq_of_lt,
      Field.width]
    rw [put_of_outside hx.2.1, put_of_outside hx.2.1, linkPrev_clear hx.2.2, put_of_outside hnew,
      put_of_outside hnew, put_of_outside hnew, put_of_outside hnew, put_of_outside hnew]

/-- The assignments of every merge. -/
theorem merge_clear {a : Block} {sz : Nat} (hx : Clear (a :: r) x) :
    linkPrev (put (put m a.addr .size sz) a.addr .next (first r 0)) (first r 0) a.addr x =
      m x := by
  rw [clear_cons] at hx
  rw [linkPrev_clear hx.2, put_of_outside hx.1, put_of_outside hx.1]

theorem absorb_clear {a n : Block} (h : Layout magic R m (l ++ a :: n :: r))
    (hx : Clear (a :: r) x) : absorb m a.addr n.addr x = m x := by
  have hn : Stored magic m n (last 0 (l ++ [a])) (first r 0) :=
    Layout.stored (l := l ++ [a]) (by simpa using h)
  have han := Layout.before (l := l ++ [a]) (r := n :: r) (by simpa using h) (a := a) (c := n)
    (by simp) (by simp)
  unfold absorb
  simp (disch := omega) only [get_put_apart, hn.next]
  exact merge_clear hx

/-! ## Allocating and freeing -/

theorem cut_free (b : Block) (req : Nat) (f : Bool) (hx : Clear (cut { b with free := f } req) x) :
    Clear (cut b req) x := by
  unfold cut at hx ⊢
  dsimp only at hx
  split
  · rename_i hroom
    rw [if_pos hroom] at hx
    simpa [Clear] using hx
  · rename_i hroom
    rw [if_neg hroom] at hx
    simpa [Clear] using hx

theorem takeBlock_clear (h : Layout magic R s.mem (l ++ b :: r)) {size : Nat}
    (hsize : size ≤ b.size) (hx : Clear (l ++ b :: r) x)
    (hx' : Clear (l ++ (cut { b with free := false } size ++ r)) x) :
    (takeBlock magic s b.addr size).1.mem x = s.mem x := by
  rw [clear_append, clear_append] at hx'
  have hcut : Clear (l ++ (cut b size ++ r)) x :=
    clear_append.mpr ⟨hx'.1, clear_append.mpr ⟨cut_free b size false hx'.2.1, hx'.2.2⟩⟩
  unfold takeBlock
  dsimp only
  rw [put_of_outside (hx b (by simp))]
  exact splitBlock_clear h hsize hx hcut

/-- The same for a block that is used already. -/
theorem retake_clear (h : Layout magic R s.mem (l ++ b :: r)) (hused : b.free = false) {size : Nat}
    (hsize : size ≤ b.size) (hx : Clear (l ++ b :: r) x)
    (hx' : Clear (l ++ (cut b size ++ r)) x) :
    (takeBlock magic s b.addr size).1.mem x = s.mem x := by
  have hsame : { b with free := false } = b := by rw [← hused]
  refine takeBlock_clear h hsize hx ?_
  rwa [hsame]

theorem coalesceNext_clear (h : Layout magic R s.mem (l ++ b :: r)) (hx : Clear (b :: r) x) :
    (coalesceNext s b.addr).mem x = s.mem x := by
  unfold coalesceNext
  rw [h.stored.next]
  cases r with
  | nil => rfl
  | cons n r =>
    rw [clear_cons, clear_cons] at hx
    rw [first_cons]
    dsimp only
    split
    · dsimp only
      exact absorb_clear h (clear_cons.mpr ⟨hx.1, hx.2.2⟩)
    · rfl

theorem coalescePrev_clear (h : Layout magic R s.mem (l ++ b :: r)) (hx : Clear (l ++ r) x) :
    (coalescePrev s b.addr).mem x = s.mem x := by
  unfold coalescePrev
  rw [h.stored.prev]
  cases l using List.reverseRecOn with
  | nil => rfl
  | append_singleton l p =>
    have h' : Layout magic R s.mem (l ++ p :: b :: r) := by simpa using h
    simp only [last_append, last_cons, last_nil]
    split
    · dsimp only
      exact absorb_clear h' (clear_cons.mpr ⟨hx p (by simp), fun c hc => hx c (by simp [hc])⟩)
    · rfl

theorem joinNext_tail (b : Block) (r : List Block) : ∀ c ∈ (joinNext b r).tail, c ∈ r := by
  intro c hc
  cases r with
  | nil => simp [joinNext] at hc
  | cons n r =>
    simp only [joinNext] at hc
    split at hc <;> simp_all

theorem coalesce_clear (h : Layout magic R s.mem (l ++ b :: r)) (hx : Clear (l ++ b :: r) x) :
    (coalesce s b.addr).mem x = s.mem x := by
  have hnext := coalesceNext_spec h
  have htail := joinNext_tail b r
  rw [clear_append] at hx
  unfold coalesce
  rw [if_neg (h.addr_ne_zero b (by simp))]
  obtain ⟨c, t, heq, haddr, -⟩ := joinNext_cons b r
  rw [heq] at hnext htail
  rw [← haddr] at hnext ⊢
  rw [coalescePrev_clear hnext (clear_append.mpr ⟨hx.1, fun d hd => hx.2 d ?_⟩), haddr]
  · exact coalesceNext_clear h hx.2
  · exact List.mem_cons_of_mem _ (htail d hd)

/-- Freeing writes to headers of the list only. -/
theorem freeBlock_clear (h : Layout magic R s.mem (l ++ b :: r)) (hx : Clear (l ++ b :: r) x) :
    (freeBlock magic s (b.addr + 40)).mem x = s.mem x := by
  unfold freeBlock
  rw [if_neg (by omega), payloadToHeader_eq h]
  dsimp only
  split
  · rfl
  · split
    · rfl
    · have hput := putFree_spec h true
      have hx' : Clear (l ++ { b with free := true } :: r) x := by
        rw [clear_append, clear_cons] at hx ⊢
        exact hx
      rw [coalesce_clear (b := { b with free := true }) hput hx']
      exact put_of_outside (hx b (by simp))

end KernelC.Malloc
