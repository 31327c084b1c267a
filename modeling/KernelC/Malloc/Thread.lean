import KernelC.Malloc.Realloc

/-!
# The block list from end to end

`Threaded` follows the block list from the head of the heap to its tail, without
the assumption that the blocks tile a region: a block that `heap_expand` makes
lies inside another one. What is left is that the headers do not overlap, so
each operation that makes a header or copies bytes has to miss those that are
there.

Splitting, coalescing and freeing keep the tail at the last block
(`splitBlock_tail`, `coalesce_tail`, `freeBlock_tail`). A block that grows over
the blocks behind it keeps it only if one is left (`Threaded.merge`).
-/

namespace KernelC.Malloc

open Block

variable {magic e : Nat} {R : Region} {s : Heap} {l r : List Block} {b : Block}

/-- `heap_tail` is the last block of the list. -/
def AtTail (s : Heap) (l : List Block) : Prop := s.tail = last 0 l

theorem last_mem {a : Nat} (hr : r ≠ []) : ∃ c ∈ r, last a r = c.addr := by
  induction r generalizing a with
  | nil => exact absurd rfl hr
  | cons c t ih =>
    rw [last_cons]
    by_cases ht : t = []
    · subst ht
      exact ⟨c, by simp, rfl⟩
    · obtain ⟨d, hd, heq⟩ := ih (a := c.addr) ht
      exact ⟨d, by simp [hd], heq⟩

theorem last_of_ne_nil {a a' : Nat} (hr : r ≠ []) : last a r = last a' r := by
  cases r with
  | nil => exact absurd rfl hr
  | cons c t => rfl

theorem last_middle (l r : List Block) (b : Block) : last 0 (l ++ b :: r) = last b.addr r := by
  rw [last_append, last_cons]

/-- The last of the blocks behind `b` is not `b`. -/
theorem Chain.last_ne {m : Mem} (h : Chain magic R e m (l ++ b :: r)) (hr : r ≠ []) :
    last b.addr r ≠ b.addr := by
  obtain ⟨c, hc, heq⟩ := last_mem (a := b.addr) hr
  have := h.spread.header (.inr hc)
  omega

/-! ## Splitting, merging and freeing -/

theorem splitBlock_tail (h : Chain magic R e s.mem (l ++ b :: r)) {req : Nat} (hreq : req ≤ b.size)
    (ht : AtTail s (l ++ b :: r)) :
    AtTail (splitBlock magic s b.addr req) (l ++ (cut b req ++ r)) := by
  have hbd := h.bounds (b := b) (by simp)
  unfold AtTail at *
  rw [last_middle] at ht
  unfold splitBlock cut headerToPayload
  rw [h.stored.size, wadd_eq (by omega), wadd_eq (a := b.addr) (by omega), wadd_eq (by omega)]
  by_cases hroom : b.size < req + 48
  · rw [if_pos hroom, if_pos hroom, ht]
    exact (last_middle l r b).symm
  · rw [if_neg hroom, if_neg hroom]
    simp only [List.cons_append, List.nil_append, last_append, last_cons]
    by_cases hr : r = []
    · subst hr
      rw [ht, last_nil, if_pos rfl, last_nil]
    · rw [ht, if_neg (h.last_ne hr)]
      exact last_of_ne_nil hr

theorem takeBlock_tail (h : Chain magic R e s.mem (l ++ b :: r)) {size : Nat}
    (hsize : size ≤ b.size) (ht : AtTail s (l ++ b :: r)) (f : Bool) :
    AtTail (takeBlock magic s b.addr size).1 (l ++ (cut { b with free := f } size ++ r)) := by
  have hsplit := splitBlock_tail h hsize ht
  unfold AtTail takeBlock cut at *
  split at hsplit
  · next hroom =>
    rw [if_pos hroom]
    simpa [last_append] using hsplit
  · next hroom =>
    rw [if_neg hroom]
    simpa [last_append] using hsplit

theorem coalesceNext_tail (h : Chain magic R e s.mem (l ++ b :: r)) (ht : AtTail s (l ++ b :: r)) :
    AtTail (coalesceNext s b.addr) (l ++ joinNext b r) := by
  unfold AtTail at *
  unfold coalesceNext
  rw [h.stored.next]
  cases r with
  | nil => exact ht
  | cons n r =>
    have h' : Chain magic R e s.mem ((l ++ [b]) ++ n :: r) := by simpa using h
    have hn := h'.stored.free_ne_zero
    rw [first_cons]
    dsimp only [joinNext]
    by_cases hfree : n.free = true
    · rw [if_pos ⟨h'.addr_ne_zero n (by simp), hn.mpr hfree⟩, if_pos hfree]
      dsimp only
      rw [last_middle, last_cons] at ht
      rw [last_middle, ht]
      by_cases hr : r = []
      · subst hr
        rw [last_nil, last_nil, if_pos rfl]
      · rw [if_neg (h'.last_ne hr)]
        exact last_of_ne_nil hr
    · rw [if_neg fun hc => hfree (hn.mp hc.2), if_neg hfree]
      exact ht

theorem coalescePrev_tail (h : Chain magic R e s.mem (l ++ b :: r)) (ht : AtTail s (l ++ b :: r)) :
    AtTail (coalescePrev s b.addr) (joinPrev l (b :: r)) := by
  unfold AtTail at *
  unfold coalescePrev joinPrev
  rw [h.stored.prev]
  cases l using List.reverseRecOn with
  | nil => exact ht
  | append_singleton l p =>
    have h' : Chain magic R e s.mem (l ++ p :: b :: r) := by simpa using h
    simp only [last_append, last_cons, last_nil, h'.stored.free_ne_zero, List.getLast?_concat,
      List.dropLast_concat]
    by_cases hfree : p.free = true
    · rw [if_pos ⟨h.addr_ne_zero p (by simp), hfree⟩, if_pos hfree]
      dsimp only
      rw [last_middle] at ht
      rw [last_append, last_cons, ht]
      dsimp only
      by_cases hr : r = []
      · subst hr
        rw [last_nil, last_nil, if_pos rfl]
      · rw [if_neg (h.last_ne hr)]
        exact last_of_ne_nil hr
    · rw [if_neg fun hc => hfree hc.2, if_neg hfree]
      exact ht

theorem coalesce_tail (h : Chain magic R e s.mem (l ++ b :: r)) (ht : AtTail s (l ++ b :: r)) :
    AtTail (coalesce s b.addr) (joinPrev l (joinNext b r)) := by
  have hnext := coalesceNext_chain h
  have htail := coalesceNext_tail h ht
  unfold coalesce
  rw [if_neg (h.addr_ne_zero b (by simp))]
  obtain ⟨c, t, heq, haddr, -⟩ := joinNext_cons b r
  rw [heq] at hnext htail ⊢
  rw [← haddr] at hnext htail ⊢
  exact coalescePrev_tail hnext htail

theorem freeBlock_tail (h : Chain magic R e s.mem (l ++ b :: r)) (hused : b.free = false)
    (ht : AtTail s (l ++ b :: r)) :
    AtTail (freeBlock magic s (b.addr + 40)) (release l b r) := by
  have hzero : get s.mem b.addr .free = 0 := by rw [h.stored.free, hused]; rfl
  unfold freeBlock
  rw [if_neg (by omega), h.payloadToHeader_eq]
  simp only [h.stored.magic, hzero, ne_eq, not_true_eq_false, if_false]
  refine coalesce_tail (b := { b with free := true }) (putFree_chain h true) ?_
  unfold AtTail at *
  rw [last_middle] at ht ⊢
  exact ht

/-! ## The list from end to end -/

/-- The blocks `l` are linked from `heap_head` to `heap_tail`, and the live pointers are the
payloads of the used ones. -/
structure Threaded (magic : Nat) (R : Region) (e : Nat) (s : Heap) (live : Finset Nat)
    (l : List Block) : Prop where
  chain : Chain magic R e s.mem l
  head : s.head = first l 0
  tail : AtTail s l
  live : ∀ p, p ∈ live ↔ p ∈ payloads l

theorem first_cut (b : Block) (req k : Nat) (r : List Block) :
    first (cut b req ++ r) k = b.addr := by
  unfold cut
  split <;> rfl

theorem first_release (l r : List Block) (b : Block) (k : Nat) :
    first (release l b r) k = first (l ++ b :: r) k := by
  obtain ⟨c, t, heq, haddr, -⟩ := joinNext_cons { b with free := true } r
  unfold release joinPrev
  rw [heq]
  cases l using List.reverseRecOn with
  | nil => exact haddr
  | append_singleton l p =>
    simp only [List.getLast?_concat, List.dropLast_concat]
    split <;> simp [first_append]

namespace Threaded

variable {live : Finset Nat} {m' : Mem}

theorem split (h : Threaded magic R e s live (l ++ b :: r)) {req : Nat} (hreq : req ≤ b.size)
    (hmiss : req + 48 ≤ b.size → Misses (l ++ r) (b.addr + 40 + req) 40) :
    Threaded magic R e (splitBlock magic s b.addr req) live (l ++ (cut b req ++ r)) := by
  refine ⟨splitBlock_cut_chain h.chain hreq hmiss, ?_, splitBlock_tail h.chain hreq h.tail, ?_⟩
  · rw [splitBlock_head, h.head, first_append, first_append, first_cut, first_cons]
  · rw [payloads_cut_append]
    exact h.live

theorem take (h : Threaded magic R e s live (l ++ b :: r)) {size : Nat} (hfit : Fits size b)
    (hmiss : size + 48 ≤ b.size → Misses (l ++ r) (b.addr + 40 + size) 40) :
    Threaded magic R e (takeBlock magic s b.addr size).1 (insert (b.addr + 40) live)
      (l ++ (cut { b with free := false } size ++ r)) := by
  refine ⟨takeBlock_chain h.chain hfit.2 hmiss, ?_, takeBlock_tail h.chain hfit.2 h.tail false,
    fun p => ?_⟩
  · rw [takeBlock_head, h.head, first_append, first_append, first_cut, first_cons]
  · rw [Finset.mem_insert, h.live, mem_payloads_take hfit.1]

/-- The same for a block that is used already. -/
theorem retake (h : Threaded magic R e s live (l ++ b :: r)) (hused : b.free = false) {size : Nat}
    (hsize : size ≤ b.size)
    (hmiss : size + 48 ≤ b.size → Misses (l ++ r) (b.addr + 40 + size) 40) :
    Threaded magic R e (takeBlock magic s b.addr size).1 live (l ++ (cut b size ++ r)) := by
  have hsame : { b with free := false } = b := by rw [← hused]
  have hchain := takeBlock_chain h.chain hsize hmiss
  have htail := takeBlock_tail h.chain hsize h.tail false
  rw [hsame] at hchain htail
  refine ⟨hchain, ?_, htail, ?_⟩
  · rw [takeBlock_head, h.head, first_append, first_append, first_cut, first_cons]
  · rw [payloads_cut_append]
    exact h.live

theorem free (h : Threaded magic R e s live (l ++ b :: r)) (hused : b.free = false) :
    Threaded magic R e (freeBlock magic s (b.addr + 40)) (live.erase (b.addr + 40))
      (release l b r) := by
  refine ⟨freeBlock_chain h.chain hused, ?_, freeBlock_tail h.chain hused h.tail, fun p => ?_⟩
  · rw [freeBlock_head, h.head, first_release]
  · rw [Finset.mem_erase, h.live, mem_payloads_release (payloads_nodup h.chain) hused]

/-- The blocks `w` join `b`, and `b` is not the last one then. -/
theorem merge {w : List Block} {sz : Nat} (h : Threaded magic R e s live (l ++ b :: (w ++ r)))
    (hfree : ∀ c ∈ w, c.free = true) (hsz : sz = b.size + extent 40 w) (hr : r ≠ []) :
    Threaded magic R e { s with mem := mergeBlock s.mem b.addr sz (first r 0) } live
      (l ++ { b with size := sz } :: r) := by
  refine ⟨merge_chain h.chain hsz, ?_, ?_, ?_⟩
  · rw [h.head, first_append, first_append, first_cons, first_cons]
  · have htail := h.tail
    unfold AtTail at *
    rw [last_middle, last_append] at htail
    rw [last_middle, htail]
    exact last_of_ne_nil hr
  · have hp : payloads (l ++ { b with size := sz } :: r) = payloads (l ++ b :: (w ++ r)) := by
      simp [payloads_append, payloads_cons, payloads_of_free hfree]
    rw [hp]
    exact h.live

/-- A write that overlaps no header. -/
theorem write (h : Threaded magic R e s live l) {a k : Nat} (hmiss : Misses l a k)
    (hm : ∀ x, x < a ∨ a + k ≤ x → m' x = s.mem x) :
    Threaded magic R e { s with mem := m' } live l :=
  ⟨h.chain.write hmiss hm, h.head, h.tail, h.live⟩

/-- The block of a live pointer. -/
theorem block (h : Threaded magic R e s live l) {p : Nat} (hp : p ∈ live) :
    ∃ u b v, l = u ++ b :: v ∧ b.free = false ∧ p = b.addr + 40 := by
  obtain ⟨b, hb, hfree, rfl⟩ := mem_payloads.mp ((h.live p).mp hp)
  obtain ⟨u, v, rfl⟩ := List.append_of_mem hb
  exact ⟨u, b, v, rfl, hfree, rfl⟩

theorem zero_notMem (h : Threaded magic R e s live l) : 0 ∉ live := by
  intro hmem
  obtain ⟨b, -, -, hb⟩ := mem_payloads.mp ((h.live 0).mp hmem)
  omega

end Threaded

end KernelC.Malloc
