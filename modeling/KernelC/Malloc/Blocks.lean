import KernelC.Lib.Path
import KernelC.Libc.String
import KernelC.Malloc.Layout

/-!
# What the shared operations do to the block list

* On lists of blocks: `cut`, `joinNext`, `joinPrev` and `release` are the list
  after a split, a coalescing step and a `free`; none of them changes the used
  payloads but by the block it is about.
* `Holds`: the heap has the layout `l` and its used blocks are those of the live
  pointers of a client. Taking a block, freeing one and the parts of `realloc`
  keep it.
* `Separated`: what a client relies on, read off `Holds`.
-/

namespace KernelC.Malloc

open Block

variable {magic e : Nat} {R : Region} {m m' : Mem} {s : Heap} {l r : List Block} {b : Block}

/-- The payload addresses of the used blocks. -/
def payloads (l : List Block) : List Nat :=
  (l.filter fun b => !b.free).map fun b => b.addr + 40

/-- The used blocks. -/
def used (l : List Block) : List Block := l.filter fun b => !b.free

/-- The blocks that `split_block` makes of a block. -/
def cut (b : Block) (req : Nat) : List Block :=
  if b.size < req + 48 then [b]
  else [{ b with size := req }, ⟨b.addr + 40 + req, b.size - req - 40, true⟩]

/-- The first half of `coalesce`: a free block behind `b` joins it. -/
def joinNext (b : Block) : List Block → List Block
  | [] => [b]
  | n :: r => if n.free then { b with size := b.size + 40 + n.size } :: r else b :: n :: r

/-- The second half of `coalesce`: the first of the blocks `r` joins a free
block before it. -/
def joinPrev (l r : List Block) : List Block :=
  match l.getLast?, r with
  | some p, b :: t =>
    if p.free then l.dropLast ++ { p with size := p.size + 40 + b.size } :: t else l ++ r
  | _, _ => l ++ r

/-- The list after the block `b` between `l` and `r` is freed. -/
def release (l : List Block) (b : Block) (r : List Block) : List Block :=
  joinPrev l (joinNext { b with free := true } r)

theorem mem_used {c : Block} : c ∈ used l ↔ c ∈ l ∧ c.free = false := by
  simp [used]

theorem payloads_append : payloads (l ++ r) = payloads l ++ payloads r := by
  simp [payloads]

theorem payloads_cons : payloads (b :: r) =
    if b.free then payloads r else (b.addr + 40) :: payloads r := by
  unfold payloads
  cases hb : b.free <;> simp [hb]

theorem mem_payloads {p : Nat} :
    p ∈ payloads l ↔ ∃ b ∈ l, b.free = false ∧ b.addr + 40 = p := by
  simp [payloads, and_assoc]

theorem payloads_of_free (h : ∀ b ∈ l, b.free = true) : payloads l = [] := by
  unfold payloads
  rw [List.filter_eq_nil_iff.mpr fun b hb => by simp [h b hb], List.map_nil]

theorem payloads_nodup (h : Chain magic R e m l) : (payloads l).Nodup := by
  have hp : l.Pairwise fun a b => a.addr + 40 ≠ b.addr + 40 :=
    (List.pairwise_map.mp h.spread.apart).imp fun {a b} hab => by omega
  exact List.pairwise_map.mpr (hp.filter _)

theorem payloads_cut (b : Block) (req : Nat) :
    payloads (cut b req) = payloads [b] := by
  unfold cut
  split
  · rfl
  · simp [payloads_cons]

theorem addr_of_mem_cut {c : Block} {req : Nat} (hc : c ∈ cut b req) :
    c.addr = b.addr ∨ c.addr = b.addr + 40 + req := by
  unfold cut at hc
  split at hc
  · exact .inl (by rw [List.mem_singleton.mp hc])
  · rcases List.mem_cons.mp hc with rfl | hc
    · exact .inl rfl
    · exact .inr (by rw [List.mem_singleton.mp hc])

theorem used_joinNext (b : Block) (r : List Block) (hb : b.free = true) :
    used (joinNext b r) = used r := by
  cases r with
  | nil => simp [used, joinNext, hb]
  | cons n r =>
    simp only [joinNext]
    split
    · next hn => simp [used, hb, hn]
    · simp [used, hb]

theorem used_joinPrev (hb : b.free = true) : used (joinPrev l (b :: r)) = used l ++ used r := by
  cases l using List.reverseRecOn with
  | nil => simp [joinPrev, used, hb]
  | append_singleton l p =>
    unfold joinPrev
    simp only [List.getLast?_concat, List.dropLast_concat]
    split
    · next hp => simp [used, hp]
    · next hp => simp [used, hb, hp]

theorem joinNext_cons (b : Block) (r : List Block) :
    ∃ c t, joinNext b r = c :: t ∧ c.addr = b.addr ∧ c.free = b.free := by
  cases r with
  | nil => exact ⟨b, [], rfl, rfl, rfl⟩
  | cons n r =>
    simp only [joinNext]
    split
    · exact ⟨_, _, rfl, rfl, rfl⟩
    · exact ⟨_, _, rfl, rfl, rfl⟩

/-- A freed block is the only used one that goes. -/
theorem used_release (l r : List Block) (b : Block) :
    used (release l b r) = used l ++ used r := by
  have hnext := used_joinNext { b with free := true } r rfl
  obtain ⟨c, t, heq, -, hfree⟩ := joinNext_cons { b with free := true } r
  have hc : used (c :: t) = used t := by simp [used, hfree]
  unfold release
  rw [heq, used_joinPrev hfree, ← hnext, heq, hc]

theorem payloads_release (l r : List Block) (b : Block) :
    payloads (release l b r) = payloads l ++ payloads r := by
  change (used (release l b r)).map _ = _
  rw [used_release, List.map_append]
  rfl

theorem payloads_cut_append (l r : List Block) (b : Block) (req : Nat) :
    payloads (l ++ (cut b req ++ r)) = payloads (l ++ b :: r) := by
  rw [payloads_append, payloads_append, payloads_cut, ← payloads_append, ← payloads_append]
  rfl

/-- A block that is taken is a new payload. -/
theorem mem_payloads_take {size p : Nat} (hfree : b.free = true) :
    p ∈ payloads (l ++ (cut { b with free := false } size ++ r)) ↔
      p = b.addr + 40 ∨ p ∈ payloads (l ++ b :: r) := by
  rw [payloads_append, payloads_append, payloads_append, payloads_cut, payloads_cons,
    payloads_cons, hfree]
  simp only [if_true, Bool.false_eq_true, if_false, List.mem_append, List.mem_cons]
  have hnil : p ∉ payloads [] := by simp [payloads]
  tauto

theorem mem_payloads_release (hnodup : (payloads (l ++ b :: r)).Nodup) (hb : b.free = false)
    {p : Nat} : p ∈ payloads (release l b r) ↔ p ≠ b.addr + 40 ∧ p ∈ payloads (l ++ b :: r) := by
  rw [payloads_append, payloads_cons, hb] at hnodup
  have hnot := List.nodup_middle.mp hnodup
  have hfresh := (List.nodup_cons.mp hnot).1
  rw [payloads_release, payloads_append, payloads_cons, hb]
  constructor
  · intro hp
    refine ⟨fun he => hfresh (he ▸ hp), ?_⟩
    simp only [List.mem_append, Bool.false_eq_true, if_false, List.mem_cons] at hp ⊢
    tauto
  · rintro ⟨hne, hp⟩
    simpa [hne] using hp

/-! ## The operations -/

@[simp] theorem splitBlock_head (h req : Nat) : (splitBlock magic s h req).head = s.head := by
  unfold splitBlock
  split <;> rfl

theorem coalesceNext_head (h : Nat) : (coalesceNext s h).head = s.head := by
  simp only [coalesceNext]
  split <;> rfl

theorem coalescePrev_head (h : Nat) : (coalescePrev s h).head = s.head := by
  simp only [coalescePrev]
  split <;> rfl

@[simp] theorem coalesce_head (h : Nat) : (coalesce s h).head = s.head := by
  unfold coalesce
  split
  · rfl
  · rw [coalescePrev_head, coalesceNext_head]

@[simp] theorem takeBlock_head (fit size : Nat) :
    (takeBlock magic s fit size).1.head = s.head :=
  splitBlock_head fit size

@[simp] theorem freeBlock_head (p : Nat) : (freeBlock magic s p).head = s.head := by
  unfold freeBlock
  split
  · rfl
  · dsimp only
    split
    · rfl
    · split
      · rfl
      · exact coalesce_head _

/-- What is too much of a block becomes a free one; its header is not put over
another one. -/
theorem splitBlock_cut_chain (h : Chain magic R e s.mem (l ++ b :: r)) {req : Nat}
    (hreq : req ≤ b.size)
    (hmiss : req + 48 ≤ b.size → Misses (l ++ r) (b.addr + 40 + req) 40) :
    Chain magic R e (splitBlock magic s b.addr req).mem (l ++ (cut b req ++ r)) := by
  have hbd := h.bounds (b := b) (by simp)
  unfold cut
  by_cases hroom : b.size < req + 48
  · have hsame : splitBlock magic s b.addr req = s := by
      unfold splitBlock
      rw [h.stored.size, wadd_eq (by omega), if_pos hroom]
    rw [if_pos hroom, hsame]
    exact h
  · rw [if_neg hroom]
    exact splitBlock_chain h (by omega) (hmiss (by omega))

theorem takeBlock_chain (h : Chain magic R e s.mem (l ++ b :: r)) {size : Nat}
    (hsize : size ≤ b.size)
    (hmiss : size + 48 ≤ b.size → Misses (l ++ r) (b.addr + 40 + size) 40) :
    Chain magic R e (takeBlock magic s b.addr size).1.mem
      (l ++ (cut { b with free := false } size ++ r)) := by
  have hcut := splitBlock_cut_chain h hsize hmiss
  unfold takeBlock cut at *
  by_cases hroom : b.size < size + 48
  · rw [if_pos hroom] at hcut ⊢
    exact putFree_chain hcut false
  · rw [if_neg hroom] at hcut ⊢
    exact putFree_chain hcut false

theorem coalesceNext_chain (h : Chain magic R e s.mem (l ++ b :: r)) :
    Chain magic R e (coalesceNext s b.addr).mem (l ++ joinNext b r) := by
  unfold coalesceNext
  rw [h.stored.next]
  cases r with
  | nil => exact h
  | cons n r =>
    have h' : Chain magic R e s.mem ((l ++ [b]) ++ n :: r) := by simpa using h
    have hn := h.addr_ne_zero n (by simp)
    simp only [first_cons, h'.stored.free_ne_zero, joinNext]
    by_cases hfree : n.free = true
    · rw [if_pos (show n.addr ≠ 0 ∧ n.free = true from ⟨hn, hfree⟩), if_pos hfree]
      dsimp only
      exact absorb_chain h
    · rw [if_neg (show ¬ (n.addr ≠ 0 ∧ n.free = true) from fun hc => hfree hc.2),
        if_neg hfree]
      exact h

theorem coalescePrev_chain (h : Chain magic R e s.mem (l ++ b :: r)) :
    Chain magic R e (coalescePrev s b.addr).mem (joinPrev l (b :: r)) := by
  unfold coalescePrev joinPrev
  rw [h.stored.prev]
  cases l using List.reverseRecOn with
  | nil => exact h
  | append_singleton l p =>
    have h' : Chain magic R e s.mem (l ++ p :: b :: r) := by simpa using h
    have hp := h.addr_ne_zero p (by simp)
    simp only [last_append, last_cons, last_nil, h'.stored.free_ne_zero, List.getLast?_concat,
      List.dropLast_concat]
    by_cases hfree : p.free = true
    · rw [if_pos (show p.addr ≠ 0 ∧ p.free = true from ⟨hp, hfree⟩), if_pos hfree]
      dsimp only
      exact absorb_chain h'
    · rw [if_neg (show ¬ (p.addr ≠ 0 ∧ p.free = true) from fun hc => hfree hc.2),
        if_neg hfree]
      exact h

theorem coalesce_chain (h : Chain magic R e s.mem (l ++ b :: r)) :
    Chain magic R e (coalesce s b.addr).mem (joinPrev l (joinNext b r)) := by
  have hnext := coalesceNext_chain h
  unfold coalesce
  rw [if_neg (h.addr_ne_zero b (by simp))]
  obtain ⟨c, t, heq, haddr, -⟩ := joinNext_cons b r
  rw [heq] at hnext ⊢
  rw [← haddr] at hnext ⊢
  exact coalescePrev_chain hnext

theorem Chain.payloadToHeader_eq (h : Chain magic R e m (l ++ b :: r)) :
    payloadToHeader (b.addr + 40) = b.addr := by
  have hbd := h.bounds (b := b) (by simp)
  unfold payloadToHeader
  rw [wsub_eq (by omega) (by omega)]
  omega

theorem Chain.blockSize_eq (h : Chain magic R e m (l ++ b :: r)) :
    blockSize m (b.addr + 40) = b.size := by
  rw [blockSize, h.payloadToHeader_eq, h.stored.size]

/-- Freeing a used block. -/
theorem freeBlock_chain (h : Chain magic R e s.mem (l ++ b :: r)) (hb : b.free = false) :
    Chain magic R e (freeBlock magic s (b.addr + 40)).mem (release l b r) := by
  have hstored := h.stored
  have hused : get s.mem b.addr .free = 0 := by rw [hstored.free, hb]; rfl
  unfold freeBlock
  rw [if_neg (by omega), h.payloadToHeader_eq]
  simp only [hstored.magic, hused, ne_eq, not_true_eq_false, if_false]
  exact coalesce_chain (b := { b with free := true }) (putFree_chain h true)

/-! ## The operations on tilings -/

theorem tiles_cut {lo hi req : Nat} (h : Tiles 40 lo (l ++ b :: r) hi) :
    Tiles 40 lo (l ++ (cut b req ++ r)) hi := by
  refine h.replace (w := [b]) fun x e he => ?_
  unfold cut
  split
  · exact he
  · obtain ⟨ha, he⟩ := he
    refine ⟨ha, rfl, ?_⟩
    rw [tiles_nil] at he ⊢
    dsimp only
    omega

theorem tiles_absorb {lo hi : Nat} {a n : Block} (h : Tiles 40 lo (l ++ a :: n :: r) hi) :
    Tiles 40 lo (l ++ { a with size := a.size + 40 + n.size } :: r) hi := by
  refine Tiles.replace (w := [a, n]) (t := [_]) h fun x e he => ?_
  obtain ⟨ha, hn, he⟩ := he
  refine ⟨ha, ?_⟩
  rw [tiles_nil] at he ⊢
  dsimp only
  omega

theorem tiles_joinNext {lo hi : Nat} (h : Tiles 40 lo (l ++ b :: r) hi) :
    Tiles 40 lo (l ++ joinNext b r) hi := by
  cases r with
  | nil => exact h
  | cons n r =>
    simp only [joinNext]
    split
    · exact tiles_absorb h
    · exact h

theorem tiles_joinPrev {lo hi : Nat} (h : Tiles 40 lo (l ++ b :: r) hi) :
    Tiles 40 lo (joinPrev l (b :: r)) hi := by
  cases l using List.reverseRecOn with
  | nil => exact h
  | append_singleton l p =>
    unfold joinPrev
    simp only [List.getLast?_concat, List.dropLast_concat]
    split
    · exact tiles_absorb (by simpa using h)
    · exact h

theorem tiles_release {lo hi : Nat} (h : Tiles 40 lo (l ++ b :: r) hi) :
    Tiles 40 lo (release l b r) hi := by
  have hfree : Tiles 40 lo (l ++ { b with free := true } :: r) hi :=
    h.replace (w := [b]) (t := [_]) fun _ _ he => he
  have hnext := tiles_joinNext hfree
  obtain ⟨c, t, heq, -⟩ := joinNext_cons { b with free := true } r
  unfold release
  rw [heq] at hnext ⊢
  exact tiles_joinPrev hnext

/-- The header that a split puts into a payload of a tiling misses the others. -/
theorem Layout.misses (h : Layout magic R m (l ++ b :: r)) {req : Nat}
    (hroom : req + 48 ≤ b.size) : Misses (l ++ r) (b.addr + 40 + req) 40 := by
  have h' : Layout magic R m ((l ++ [b]) ++ r) := by simpa using h
  intro c hc
  rcases List.mem_append.mp hc with hc | hc
  · have := h.before hc (c := b) (by simp)
    omega
  · have := h'.before (a := b) (by simp) hc
    omega

theorem splitBlock_cut (h : Layout magic R s.mem (l ++ b :: r)) {req : Nat}
    (hreq : req ≤ b.size) :
    Layout magic R (splitBlock magic s b.addr req).mem (l ++ (cut b req ++ r)) :=
  ⟨tiles_cut h.tiles, (splitBlock_cut_chain h.chain hreq h.misses).linked⟩

/-- Taking a block: what is too much of it stays behind as a free block. -/
theorem takeBlock_spec (h : Layout magic R s.mem (l ++ b :: r)) {size : Nat}
    (hsize : size ≤ b.size) :
    Layout magic R (takeBlock magic s b.addr size).1.mem
      (l ++ (cut { b with free := false } size ++ r)) ∧
    (takeBlock magic s b.addr size).2 = b.addr + 40 := by
  have hbd := h.bounds (b := b) (by simp)
  have hused : Tiles 40 R.lo (l ++ { b with free := false } :: r) R.hi :=
    h.tiles.replace (w := [b]) (t := [_]) fun _ _ he => he
  exact ⟨⟨tiles_cut hused, (takeBlock_chain h.chain hsize h.misses).linked⟩, wadd_eq (by omega)⟩

theorem coalesceNext_spec (h : Layout magic R s.mem (l ++ b :: r)) :
    Layout magic R (coalesceNext s b.addr).mem (l ++ joinNext b r) :=
  ⟨tiles_joinNext h.tiles, (coalesceNext_chain h.chain).linked⟩

theorem payloadToHeader_eq (h : Layout magic R m (l ++ b :: r)) :
    payloadToHeader (b.addr + 40) = b.addr :=
  h.chain.payloadToHeader_eq

theorem freeBlock_spec (h : Layout magic R s.mem (l ++ b :: r)) (hb : b.free = false) :
    Layout magic R (freeBlock magic s (b.addr + 40)).mem (release l b r) :=
  ⟨tiles_release h.tiles, (freeBlock_chain h.chain hb).linked⟩

/-! ## Heaps and their clients -/

/-- The blocks `l` are the heap of `s`, and the live pointers are the payloads of
the used ones. -/
structure Holds (magic : Nat) (R : Region) (s : Heap) (live : Finset Nat) (l : List Block) :
    Prop where
  head : s.head = R.lo
  layout : Layout magic R s.mem l
  live : ∀ p, p ∈ live ↔ p ∈ payloads l

variable {live : Finset Nat}

/-- A client's memory: it may change inside the payload of one block. -/
theorem Holds.write (h : Holds magic R s live l) (hb : b ∈ l)
    (hm : ∀ x, x < b.addr + 40 ∨ b.addr + 40 + b.size ≤ x → m' x = s.mem x) :
    Holds magic R { s with mem := m' } live l := by
  refine ⟨h.head, h.layout.congr fun c hc x h1 h2 => hm x ?_, h.live⟩
  by_cases hcb : c = b
  · subst hcb
    omega
  · have := h.layout.tiles.apart hc hb hcb
    omega

namespace Holds

/-- The block of a live pointer. -/
theorem block (h : Holds magic R s live l) {p : Nat} (hp : p ∈ live) :
    ∃ u b v, l = u ++ b :: v ∧ b.free = false ∧ p = b.addr + 40 := by
  obtain ⟨b, hb, hfree, rfl⟩ := mem_payloads.mp ((h.live p).mp hp)
  obtain ⟨u, v, rfl⟩ := List.append_of_mem hb
  exact ⟨u, b, v, rfl, hfree, rfl⟩

theorem zero_notMem (h : Holds magic R s live l) : 0 ∉ live := by
  intro hmem
  obtain ⟨b, -, -, hb⟩ := mem_payloads.mp ((h.live 0).mp hmem)
  omega

/-- The memory changes, the payloads do not. -/
theorem of_layout (h : Holds magic R s live l) {s' : Heap} {l' : List Block}
    (hhead : s'.head = s.head) (hl : Layout magic R s'.mem l') (hp : payloads l' = payloads l) :
    Holds magic R s' live l' :=
  ⟨hhead.trans h.head, hl, by rw [hp]; exact h.live⟩

theorem of_mem (h : Holds magic R s live l) {l' : List Block} (hl : Layout magic R m' l')
    (hp : payloads l' = payloads l) : Holds magic R { s with mem := m' } live l' :=
  ⟨h.head, hl, by rw [hp]; exact h.live⟩

/-- `free` of a live pointer. -/
theorem free (h : Holds magic R s live (l ++ b :: r)) (hb : b.free = false) :
    Holds magic R (freeBlock magic s (b.addr + 40)) (live.erase (b.addr + 40))
      (release l b r) := by
  refine ⟨(freeBlock_head _).trans h.head, freeBlock_spec h.layout hb, fun p => ?_⟩
  rw [Finset.mem_erase, h.live, mem_payloads_release (payloads_nodup h.layout.chain) hb]

/-- `free` of NULL or of a live pointer. -/
theorem free_cases (h : Holds magic R s live l) {p : Nat} (hp : p = 0 ∨ p ∈ live) :
    ∃ l', Holds magic R (freeBlock magic s p) (live.erase p) l' := by
  rcases hp with rfl | hp
  · rw [Finset.erase_eq_of_notMem h.zero_notMem]
    exact ⟨l, h⟩
  · obtain ⟨u, b, v, rfl, hb, rfl⟩ := h.block hp
    exact ⟨_, h.free hb⟩

/-- Taking a free block that is large enough. -/
theorem take (h : Holds magic R s live (l ++ b :: r)) {size : Nat} (hfit : Fits size b) :
    Holds magic R (takeBlock magic s b.addr size).1 (insert (b.addr + 40) live)
      (l ++ (cut { b with free := false } size ++ r)) := by
  refine ⟨(takeBlock_head _ _).trans h.head, (takeBlock_spec h.layout hfit.2).1, fun p => ?_⟩
  rw [Finset.mem_insert, h.live, mem_payloads_take hfit.1]

end Holds

/-- What a successful allocation of `size` bytes leaves: the new block, and all
the used blocks that were there. -/
structure Took (magic : Nat) (R : Region) (s : Heap) (live : Finset Nat) (l : List Block)
    (size : Nat) (s' : Heap) (p : Nat) : Prop where
  nonnull : p ≠ 0
  fresh : p ∉ live
  holds : ∃ l', Holds magic R s' (insert p live) l' ∧
    (∃ b ∈ l', b.addr + 40 = p ∧ size ≤ b.size) ∧ ∀ c ∈ l, c.free = false → c ∈ l'

theorem cut_head {size : Nat} (hsize : size ≤ b.size) :
    ∃ c t, cut b size = c :: t ∧ c.addr = b.addr ∧ size ≤ c.size := by
  unfold cut
  split
  · exact ⟨b, [], rfl, rfl, hsize⟩
  · exact ⟨_, _, rfl, rfl, Nat.le_refl _⟩

/-- A free block that is large enough is taken. -/
theorem Holds.took (h : Holds magic R s live (l ++ b :: r)) {size : Nat} (hfit : Fits size b) :
    Took magic R s live (l ++ b :: r) size (takeBlock magic s b.addr size).1 (b.addr + 40) := by
  refine ⟨by omega, fun hmem => ?_, _, h.take hfit, ?_, fun c hc hused => ?_⟩
  · -- a used block at this address would be `b`, which is free
    obtain ⟨c, hc, hused, haddr⟩ := mem_payloads.mp ((h.live _).mp hmem)
    have hne : c ≠ b := by
      rintro rfl
      exact absurd (hused.symm.trans hfit.1) (by decide)
    have := h.layout.tiles.apart hc (by simp) hne
    omega
  · obtain ⟨c, t, hcut, haddr, hsize⟩ := cut_head (b := { b with free := false }) hfit.2
    exact ⟨c, by simp [hcut], by rw [haddr], hsize⟩
  · have hne : c ≠ b := by
      rintro rfl
      exact absurd (hused.symm.trans hfit.1) (by decide)
    simp only [List.mem_append, List.mem_cons] at hc ⊢
    tauto

/-! ## What a client relies on -/

/-- A block of the list: it is reached from the head along `next`. -/
def Listed (s : Heap) (h : Nat) : Prop :=
  ∃ l, Path (fun a => get s.mem a .next) s.head l h ∧ 0 ∉ l ∧ h ≠ 0

/-- Live payloads overlap neither each other nor a header of the list, and lie
inside the region. -/
structure Separated (R : Region) (s : Heap) (live : Finset Nat) : Prop where
  apart : ∀ p ∈ live, ∀ q ∈ live, p ≠ q →
    p + blockSize s.mem p ≤ q ∨ q + blockSize s.mem q ≤ p
  headers : ∀ p ∈ live, ∀ h, Listed s h → p + blockSize s.mem p ≤ h ∨ h + 40 ≤ p
  inside : ∀ p ∈ live, R.lo ≤ p ∧ p + blockSize s.mem p ≤ R.hi

theorem linked_path {p : Nat} (h : Linked (Stored magic m) p l 0) :
    Path (fun a => get m a .next) (first l 0) (l.map Block.addr) 0 := by
  induction l generalizing p with
  | nil => rfl
  | cons b l ih =>
    refine ⟨rfl, ?_⟩
    dsimp only
    rw [h.1.next]
    exact ih h.2

theorem Layout.addr_inj (h : Layout magic R m l) {a c : Block} (ha : a ∈ l) (hc : c ∈ l)
    (heq : a.addr = c.addr) : a = c := by
  by_contra hne
  have := h.tiles.apart ha hc hne
  omega

/-- The two links of neighbouring blocks agree. -/
theorem Layout.inverse (h : Layout magic R m l) {a c : Block} (ha : a ∈ l) (hc : c ∈ l) :
    get m a.addr .next = c.addr ↔ get m c.addr .prev = a.addr := by
  constructor
  · intro hnext
    obtain ⟨u, v, rfl⟩ := List.append_of_mem ha
    rw [h.stored.next] at hnext
    cases v with
    | nil => exact absurd hnext.symm (h.addr_ne_zero c hc)
    | cons d v =>
      obtain rfl := h.addr_inj (by simp) hc hnext
      have hd : Stored magic m d (last 0 (u ++ [a])) (first v 0) :=
        Layout.stored (l := u ++ [a]) (by simpa using h)
      rw [hd.prev, last_append]
      rfl
  · intro hprev
    obtain ⟨u, v, rfl⟩ := List.append_of_mem hc
    rw [h.stored.prev] at hprev
    cases u using List.reverseRecOn with
    | nil => exact absurd hprev.symm (h.addr_ne_zero a ha)
    | append_singleton u d =>
      rw [last_append] at hprev
      obtain rfl := h.addr_inj (by simp) ha hprev
      have hd : Stored magic m d (last 0 u) (first (c :: v) 0) :=
        Layout.stored (l := u) (by simpa using h)
      exact hd.next

namespace Holds

theorem mem_of_listed (h : Holds magic R s live l) {a : Nat} (ha : Listed s a) :
    ∃ b ∈ l, b.addr = a := by
  obtain ⟨l', hpath, hzero, hne⟩ := ha
  have hlist := linked_path h.layout.linked
  rw [h.layout.head_eq, ← h.head] at hlist
  exact List.mem_map.mp (hlist.mem_of_reached hpath hzero hne)

theorem blockSize_eq (h : Holds magic R s live (l ++ b :: r)) :
    blockSize s.mem (b.addr + 40) = b.size :=
  h.layout.chain.blockSize_eq

/-- The block of a live pointer, with its size. -/
theorem block_mem (h : Holds magic R s live l) {p : Nat} (hp : p ∈ live) :
    ∃ b ∈ l, p = b.addr + 40 ∧ blockSize s.mem p = b.size := by
  obtain ⟨u, b, v, rfl, -, rfl⟩ := h.block hp
  exact ⟨b, by simp, rfl, h.blockSize_eq⟩

theorem separated (h : Holds magic R s live l) : Separated R s live := by
  refine ⟨fun p hp q hq hne => ?_, fun p hp a ha => ?_, fun p hp => ?_⟩
  · obtain ⟨b, hb, rfl, hbs⟩ := h.block_mem hp
    obtain ⟨c, hc, rfl, hcs⟩ := h.block_mem hq
    have := h.layout.tiles.apart hb hc (fun he => hne (by rw [he]))
    omega
  · obtain ⟨b, hb, rfl, hbs⟩ := h.block_mem hp
    obtain ⟨c, hc, rfl⟩ := h.mem_of_listed ha
    by_cases hcb : b = c
    · subst hcb
      exact .inr (Nat.le_refl _)
    · have := h.layout.tiles.apart hb hc hcb
      omega
  · obtain ⟨b, hb, rfl, hbs⟩ := h.block_mem hp
    have := h.layout.bounds hb
    omega

/-- A write of a client inside a live payload. -/
theorem clientWrite (h : Holds magic R s live l) {p off : Nat} {bs : List UInt8}
    (hp : p ∈ live) (hoff : off + bs.length ≤ blockSize s.mem p) :
    Holds magic R { s with mem := store s.mem (p + off) bs } live l := by
  obtain ⟨b, hb, rfl, hsize⟩ := h.block_mem hp
  exact h.write hb fun x hx => store_of_outside (by omega)

end Holds

/-! ## Parts of `realloc` -/

theorem liveAfterRealloc_same {p n : Nat} (hp : p ∈ live) (h0 : p ≠ 0) :
    liveAfterRealloc live p n p = live := by
  unfold liveAfterRealloc
  rw [if_pos h0, Finset.insert_erase hp]

theorem liveAfterRealloc_failed {p n : Nat} (hn : n ≠ 0) : liveAfterRealloc live p n 0 = live := by
  unfold liveAfterRealloc
  rw [if_neg (by simp), if_neg hn]

theorem liveAfterRealloc_null {n q : Nat} (h0 : 0 ∉ live) :
    liveAfterRealloc live 0 n q = if q = 0 then live else insert q live := by
  unfold liveAfterRealloc
  rw [Finset.erase_eq_of_notMem h0]
  by_cases hq : q = 0
  · simp [hq]
  · rw [if_pos hq, if_neg hq]

theorem liveAfterRealloc_moved {p q n : Nat} (hq : q ≠ 0) :
    liveAfterRealloc live p n q = insert q (live.erase p) := by
  unfold liveAfterRealloc
  rw [if_pos hq]

/-- Shrinking a block in place. -/
theorem Holds.shrink (h : Holds magic R s live (l ++ b :: r)) {req : Nat} (hreq : req ≤ b.size) :
    Holds magic R (splitBlock magic s b.addr req) live (l ++ (cut b req ++ r)) := by
  exact h.of_layout (splitBlock_head _ _) (splitBlock_cut h.layout hreq)
    (payloads_cut_append _ _ _ _)

/-- A used block that was extended is split again and stays used. -/
theorem Holds.retake (h : Holds magic R s live (l ++ b :: r)) (hb : b.free = false) {size : Nat}
    (hsize : size ≤ b.size) :
    Holds magic R (takeBlock magic s b.addr size).1 live (l ++ (cut b size ++ r)) := by
  have hsame : { b with free := false } = b := by rw [← hb]
  have htake := (takeBlock_spec h.layout hsize).1
  rw [hsame] at htake
  exact h.of_layout (takeBlock_head _ _) htake (payloads_cut_append _ _ _ _)

/-- The heap right after its initialisation: one free block. -/
theorem holds_firstBlock (R : Region) (m : Mem) (tail : Nat) (hmagic : magic < 2 ^ 32) :
    Holds magic R ⟨firstBlock magic m R.lo (R.hi - R.lo), R.lo, tail⟩ ∅
      [⟨R.lo, R.hi - R.lo - 40, true⟩] := by
  have h1 := R.room
  have h2 := R.hi_lt
  have hsize : wsub (R.hi - R.lo) 40 = R.hi - R.lo - 40 := wsub_eq (by omega) (by omega)
  refine ⟨rfl, ⟨⟨rfl, ?_⟩, ⟨?_, ?_, ?_, ?_, ?_⟩, trivial⟩, fun p => ?_⟩
  · rw [tiles_nil]
    dsimp only
    omega
  all_goals simp (disch := omega) [firstBlock, hsize, Field.width, Nat.mod_eq_of_lt, payloads]

end KernelC.Malloc
