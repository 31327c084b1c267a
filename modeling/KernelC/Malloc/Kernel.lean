import KernelC.Malloc.Realloc
import Mathlib.Data.List.TakeWhile

/-!
# The kernel heap: `malloc/malloc.c`

The functions of the kernel allocator, with its expansion path.

`heap_expand` takes memory from the top of the region, but the block that
`malloc_init` makes already covers the whole region, so the new block lies
inside another one (`kernel_payloads_overlap`). In every run in which no call
gets memory this way, live payloads are separated from each other and from all
headers (`kernel_heap_separation`).
-/

namespace KernelC.Malloc.Kernel

open Block

def kernelMagic : Nat := 0xB16B00B5

/-- `brk` is `brk_ptr`, the end of the memory not yet given out. -/
structure KHeap extends Heap where
  brk : Nat

def mallocInit (s : KHeap) (start size : Nat) : KHeap :=
  if start = 0 ∨ size < 40 then s
  else
    { mem := firstBlock kernelMagic s.mem start size
      head := start
      tail := start
      brk := wadd start size }

/-- Returns the address of the new memory, or NULL. -/
def simpleMorecore (R : Region) (s : KHeap) (bytes : Nat) : KHeap × Nat :=
  let req := alignUp bytes
  let newBrk := wsub s.brk req
  if newBrk < R.lo then (s, 0) else ({ s with brk := newBrk }, newBrk)

def splitBlock (s : Heap) (h req : Nat) : Heap :=
  if h = 0 then s else Malloc.splitBlock kernelMagic s h req

def heapExpand (R : Region) (s : KHeap) (bytes : Nat) : KHeap × Bool :=
  let need := alignUp (wadd bytes 40)
  let (s, p) := simpleMorecore R s need
  if p = 0 then (s, false)
  else
    let m := put s.mem p .magic kernelMagic
    let m := put m p .free 1
    let m := put m p .size (wsub need 40)
    let m := put m p .prev s.tail
    let m := put m p .next 0
    let m := if s.tail ≠ 0 then put m s.tail .next p else m
    ({ s with mem := m, tail := p, head := if s.head = 0 then p else s.head }, true)

/-- The loop of `malloc`: returns the block that fits, or NULL. -/
def mallocLoop (R : Region) (size : Nat) : Nat → KHeap → Option (KHeap × Nat)
  | 0, _ => none
  | k + 1, s =>
    (findFit s.toHeap size).bind fun fit =>
      if fit ≠ 0 then some (s, fit)
      else
        let (s, grown) := heapExpand R s size
        if grown then mallocLoop R size k s else some (s, 0)

/-- Split off what is too much of the block `h` and mark it used. -/
def useBlock (s : KHeap) (h size : Nat) : KHeap :=
  let t := splitBlock s.toHeap h size
  { s with mem := put t.mem h .free 0, head := t.head, tail := t.tail }

def malloc (R : Region) (s : KHeap) (size : Nat) : Option (KHeap × Nat) :=
  if size = 0 then some (s, 0)
  else
    (mallocLoop R (alignUp size) (2 ^ 64) s).map fun r =>
      if r.2 = 0 then (r.1, 0)
      else (useBlock r.1 r.2 (alignUp size), headerToPayload r.2)

def free (s : KHeap) (ptr : Nat) : KHeap :=
  { s with toHeap := freeBlock kernelMagic s.toHeap ptr }

/-- The first loop of the growth in place: how much the free blocks from `cur` on
add to `sum`. -/
def sumLoop (m : Mem) (new : Nat) : Nat → Nat → Nat → Option Nat
  | 0, _, _ => none
  | k + 1, cur, sum =>
    if cur ≠ 0 ∧ get m cur .free ≠ 0 ∧ sum < new then
      sumLoop m new k (get m cur .next) (wadd sum (wadd 40 (get m cur .size)))
    else some sum

/-- Whether the block `h` and the free blocks behind it hold `new` bytes: the
tests of `realloc` before it merges them. -/
def hasRoom (m : Mem) (h new : Nat) : Option Bool :=
  let n := get m h .next
  if n ≠ 0 ∧ get m n .free ≠ 0 then
    (sumLoop m new (2 ^ 64) n (get m h .size)).map fun sum => decide (new ≤ sum)
  else some false

/-- The second loop: the block `h` takes them over. Returns the first block that
is left. -/
def absorbLoop (h new : Nat) : Nat → Mem → Nat → Option (Mem × Nat)
  | 0, _, _ => none
  | k + 1, m, nxt =>
    if nxt ≠ 0 ∧ get m nxt .free ≠ 0 ∧ get m h .size < new then
      let m := put m h .size (wadd (wadd (get m h .size) 40) (get m nxt .size))
      absorbLoop h new k m (get m nxt .next)
    else some (m, nxt)

/-- The branch of `realloc` that grows the block `h` in place. -/
def growInPlace (s : KHeap) (h new : Nat) : Option KHeap :=
  (absorbLoop h new (2 ^ 64) s.mem (get s.mem h .next)).map fun r =>
    let m := put r.1 h .next r.2
    let m := linkPrev m r.2 h
    useBlock { s with mem := m } h new

/-- The end of `realloc`: allocate, copy, free. -/
def moveBlock (R : Region) (s : KHeap) (ptr new : Nat) : Option (KHeap × Nat) :=
  (malloc R s new).map fun r =>
    if r.2 = 0 then (r.1, 0)
    else
      let size := get r.1.mem (payloadToHeader ptr) .size
      let copy := if size < new then size else new
      (free { r.1 with mem := memcpy r.1.mem r.2 ptr copy } ptr, r.2)

def realloc (R : Region) (s : KHeap) (ptr newSize : Nat) : Option (KHeap × Nat) :=
  if ptr = 0 then malloc R s newSize
  else if newSize = 0 then some (free s ptr, 0)
  else
    let h := payloadToHeader ptr
    if get s.mem h .magic ≠ kernelMagic then some (s, 0)
    else
      let new := alignUp newSize
      if new ≤ get s.mem h .size then
        some ({ s with toHeap := splitBlock s.toHeap h new }, ptr)
      else
        (hasRoom s.mem h new).bind fun room =>
          if room then (growInPlace s h new).map fun s => (s, ptr) else moveBlock R s ptr new

/-- The kernel allocator as its clients see it. -/
def kernel (R : Region) : Allocator KHeap where
  mem s := s.mem
  setMem s m := { s with mem := m }
  malloc := malloc R
  free := free
  realloc := realloc R

/-- The kernel heap as `kmain` leaves it, over any contents of the memory. -/
def kernelStart (R : Region) (m : Mem) : Client KHeap :=
  ⟨mallocInit ⟨⟨m, 0, 0⟩, 0⟩ R.lo (R.hi - R.lo), ∅⟩

/-- An allocation of `size` bytes that finds no block and gets memory from
`simple_morecore`. -/
def Expands (R : Region) (s : KHeap) (size : Nat) : Prop :=
  findFit s.toHeap size = some 0 ∧ R.lo ≤ wsub s.brk (alignUp (alignUp (wadd size 40)))

/-- The calls that do not go through a successful `heap_expand`. -/
def NoExpand (R : Region) (c : Client KHeap) : Op → Prop
  | .malloc n => n = 0 ∨ ¬ Expands R c.heap (alignUp n)
  | .realloc p n =>
    n = 0 ∨ ¬ Expands R c.heap (alignUp n) ∨
      (p ≠ 0 ∧ (alignUp n ≤ blockSize c.heap.mem p ∨
        hasRoom c.heap.mem (payloadToHeader p) (alignUp n) = some true))
  | .free _ => True
  | .write _ _ _ => True

instance (R : Region) (s : KHeap) (size : Nat) : Decidable (Expands R s size) :=
  inferInstanceAs (Decidable (_ ∧ _))

instance (R : Region) (c : Client KHeap) : (o : Op) → Decidable (NoExpand R c o)
  | .malloc _ => inferInstanceAs (Decidable (_ ∨ _))
  | .realloc _ _ => inferInstanceAs (Decidable (_ ∨ _))
  | .free _ => inferInstanceAs (Decidable True)
  | .write _ _ _ => inferInstanceAs (Decidable True)

variable {R : Region} {e : Nat} {s : KHeap} {live : Finset Nat} {l r : List Block} {b : Block}
  {c : Client KHeap}

/-! ## Allocation -/

/-- The heap with the block that `heap_expand` appends at `p`. -/
def appendBlock (s : KHeap) (p size : Nat) : KHeap :=
  let m := put s.mem p .magic kernelMagic
  let m := put m p .free 1
  let m := put m p .size size
  let m := put m p .prev s.tail
  let m := put m p .next 0
  let m := if s.tail ≠ 0 then put m s.tail .next p else m
  { mem := m, head := if s.head = 0 then p else s.head, tail := p, brk := p }

/-- `heap_expand` is refused, or appends a block where `brk` is moved to. -/
theorem heapExpand_cases (R : Region) (s : KHeap) (size : Nat) :
    (wsub s.brk (alignUp (wadd size 40)) < R.lo ∧ heapExpand R s size = (s, false)) ∨
    (R.lo ≤ wsub s.brk (alignUp (wadd size 40)) ∧ heapExpand R s size =
      (appendBlock s (wsub s.brk (alignUp (wadd size 40))) (wsub (alignUp (wadd size 40)) 40),
        true)) := by
  have hlo := R.lo_ge
  unfold heapExpand simpleMorecore appendBlock
  simp only [alignUp_alignUp]
  by_cases hlt : wsub s.brk (alignUp (wadd size 40)) < R.lo
  · exact .inl ⟨hlt, by simp only [if_pos hlt, if_true]⟩
  · refine .inr ⟨Nat.le_of_not_lt hlt, ?_⟩
    simp only [if_neg hlt]
    rw [if_neg (by omega)]

theorem heapExpand_refused {size : Nat} (hnone : findFit s.toHeap size = some 0)
    (hno : ¬ Expands R s size) : heapExpand R s size = (s, false) := by
  rcases heapExpand_cases R s size with ⟨-, hret⟩ | ⟨hge, -⟩
  · exact hret
  · rw [← alignUp_alignUp] at hge
    exact absurd ⟨hnone, hge⟩ hno

theorem free_toHeap (s : KHeap) (p : Nat) :
    (free s p).toHeap = freeBlock kernelMagic s.toHeap p := by
  unfold free
  dsimp only

theorem useBlock_eq {h n : Nat} (hh : h ≠ 0) :
    (useBlock s h n).toHeap = (takeBlock kernelMagic s.toHeap h n).1 := by
  unfold useBlock splitBlock takeBlock
  rw [if_neg hh]

theorem mallocLoop_of_fit {size a : Nat} (hsome : findFit s.toHeap size = some a) (ha : a ≠ 0)
    (k : Nat) : mallocLoop R size (k + 1) s = some (s, a) := by
  rw [mallocLoop, hsome, Option.bind_some, if_pos ha]

theorem malloc_of_fit {n a : Nat} (hn : n ≠ 0) (hsome : findFit s.toHeap (alignUp n) = some a)
    (ha : a ≠ 0) (hlt : a + 40 < 2 ^ 64) :
    malloc R s n = some (useBlock s a (alignUp n), a + 40) := by
  obtain ⟨k, hk⟩ : ∃ k, 2 ^ 64 = k + 1 := ⟨2 ^ 64 - 1, by omega⟩
  rw [malloc, if_neg hn, hk, mallocLoop_of_fit hsome ha, Option.map_some, if_neg ha,
    headerToPayload, wadd_eq hlt]

theorem malloc_of_noFit {n : Nat} (hn : n ≠ 0) (hnone : findFit s.toHeap (alignUp n) = some 0)
    (hno : ¬ Expands R s (alignUp n)) : malloc R s n = some (s, 0) := by
  obtain ⟨k, hk⟩ : ∃ k, 2 ^ 64 = k + 1 := ⟨2 ^ 64 - 1, by omega⟩
  rw [malloc, if_neg hn, hk, mallocLoop, hnone]
  simp only [Option.bind_some, heapExpand_refused hnone hno]
  rfl

/-- Without an expansion, `malloc` takes the first block that fits, and returns NULL where there
is none. -/
theorem malloc_found (h : Holds kernelMagic R s.toHeap live l) {n : Nat}
    (hn : n = 0 ∨ ¬ Expands R s (alignUp n)) :
    (malloc R s n = some (s, 0) ∧ (n = 0 ∨ ∀ d ∈ l, ¬ Fits (alignUp n) d)) ∨
    ∃ u d v, l = u ++ d :: v ∧ Fits (alignUp n) d ∧ (∀ c ∈ u, ¬ Fits (alignUp n) c) ∧
      malloc R s n = some (useBlock s d.addr (alignUp n), d.addr + 40) := by
  by_cases hn0 : n = 0
  · exact .inl ⟨by rw [malloc, if_pos hn0], .inl hn0⟩
  have hno := hn.resolve_left hn0
  rcases findFit_cases h.layout h.head (alignUp n) with
    ⟨hnone, hfits⟩ | ⟨u, d, v, rfl, hfit, hfirst, hsome⟩
  · exact .inl ⟨malloc_of_noFit hn0 hnone hno, .inr hfits⟩
  · have hd0 := h.layout.addr_ne_zero d (by simp)
    have hd := h.layout.bounds (b := d) (by simp)
    exact .inr ⟨u, d, v, rfl, hfit, hfirst, malloc_of_fit hn0 hsome hd0 (by omega)⟩

theorem malloc_cases (h : Holds kernelMagic R s.toHeap live l) {n : Nat}
    (hn : n = 0 ∨ ¬ Expands R s (alignUp n)) :
    malloc R s n = some (s, 0) ∨
    ∃ s' p, malloc R s n = some (s', p) ∧
      Took kernelMagic R s.toHeap live l (alignUp n) s'.toHeap p := by
  rcases malloc_found h hn with ⟨hnull, -⟩ | ⟨u, d, v, rfl, hfit, -, hsome⟩
  · exact .inl hnull
  · refine .inr ⟨_, _, hsome, ?_⟩
    rw [useBlock_eq (h.layout.addr_ne_zero d (by simp))]
    exact h.took hfit

/-! ## Growing in place -/

/-- Where both loops of the growth in place stop: the free blocks are added to
`sum` until it reaches `new`. Returns the sum and the blocks that are left. -/
def runEnd (new : Nat) : Nat → List Block → Nat × List Block
  | sum, [] => (sum, [])
  | sum, c :: r =>
    if c.free = true ∧ sum < new then runEnd new (sum + 40 + c.size) r else (sum, c :: r)

/-- The free blocks at the start of `r`. -/
def freeRun (r : List Block) : List Block := r.takeWhile Block.free

/-- The loops pass the shortest run of free blocks that is enough, or all of them. -/
theorem runEnd_spec (new sum : Nat) (r : List Block) :
    ∃ w, r = w ++ (runEnd new sum r).2 ∧ w <+: freeRun r ∧
      (runEnd new sum r).1 = sum + extent 40 w ∧
      (∀ t, t <+: w → t ≠ w → sum + extent 40 t < new) ∧
      (new ≤ sum + extent 40 w ∨ w = freeRun r) := by
  induction r generalizing sum with
  | nil => exact ⟨[], by simp [runEnd, freeRun]⟩
  | cons c r ih =>
    unfold runEnd
    split
    · next hc =>
      obtain ⟨w, hsplit, hpre, hsum, hshort, henough⟩ := ih (sum + 40 + c.size)
      have hrun : freeRun (c :: r) = c :: freeRun r := by simp [freeRun, hc.1]
      refine ⟨c :: w, by rw [List.cons_append, ← hsplit], ?_, ?_, ?_, ?_⟩
      · rw [hrun]
        exact List.cons_prefix_cons.mpr ⟨rfl, hpre⟩
      · rw [hsum, extent_cons]
        omega
      · rintro (_ | ⟨d, t⟩) ht hne
        · simpa using hc.2
        · obtain ⟨rfl, htw⟩ := List.cons_prefix_cons.mp ht
          have := hshort t htw fun he => hne (by rw [he])
          rw [extent_cons]
          omega
      · rw [hrun, extent_cons]
        rcases henough with hle | heq
        · exact .inl (by omega)
        · exact .inr (by rw [heq])
    · next hc =>
      refine ⟨[], rfl, List.nil_prefix, by simp, ?_, ?_⟩
      · intro t ht hne
        exact absurd (List.prefix_nil.mp ht) hne
      · by_cases hfree : c.free = true
        · have hle : ¬ sum < new := fun hlt => hc ⟨hfree, hlt⟩
          exact .inl (by rw [extent_nil]; omega)
        · exact .inr (by simp [freeRun, hfree])

/-- The blocks that the loops pass are free, and the sum is what they cover. -/
theorem runEnd_split (new sum : Nat) (r : List Block) :
    ∃ w, r = w ++ (runEnd new sum r).2 ∧ (∀ c ∈ w, c.free = true) ∧
      (runEnd new sum r).1 = sum + extent 40 w := by
  obtain ⟨w, hsplit, hpre, hsum, -⟩ := runEnd_spec new sum r
  exact ⟨w, hsplit, fun c hc => List.mem_takeWhile_imp (hpre.subset hc), hsum⟩

theorem sumLoop_eq {m : Mem} (new : Nat) {p k sum : Nat}
    (h : Linked (Stored kernelMagic m) p r 0) (hlt : sum + extent 40 r < 2 ^ 64)
    (hpos : ∀ b ∈ r, b.addr ≠ 0) (hk : r.length < k) :
    sumLoop m new k (first r 0) sum = some (runEnd new sum r).1 := by
  induction r generalizing p k sum with
  | nil =>
    obtain ⟨k, rfl⟩ : ∃ i, k = i + 1 := ⟨k - 1, by simp only [List.length_nil] at hk; omega⟩
    rfl
  | cons c r ih =>
    rw [List.length_cons] at hk
    rw [extent_cons] at hlt
    obtain ⟨k, rfl⟩ : ∃ i, k = i + 1 := ⟨k - 1, by omega⟩
    obtain ⟨hc, hr⟩ := h
    rw [first_cons, sumLoop, hc.size, hc.next, runEnd]
    simp only [hc.free_ne_zero, hpos c List.mem_cons_self, ne_eq, not_false_eq_true, true_and]
    by_cases hgo : c.free = true ∧ sum < new
    · rw [if_pos hgo, if_pos hgo, wadd_eq (a := 40) (by omega), wadd_eq (by omega),
        ← Nat.add_assoc]
      exact ih hr (by omega) (fun d hd => hpos d (List.mem_cons_of_mem _ hd)) (by omega)
    · rw [if_neg hgo, if_neg hgo]

/-- The second loop, in a memory in which the size of `h` is already `sum`. -/
theorem absorbLoop_eq {m : Mem} {p h new k sum : Nat}
    (hl : Linked (Stored kernelMagic m) p r 0) (hlt : sum + extent 40 r < 2 ^ 64)
    (hmiss : Misses r h 40) (hpos : ∀ b ∈ r, b.addr ≠ 0) (hk : r.length < k) :
    absorbLoop h new k (put m h .size sum) (first r 0) =
      some (put m h .size (runEnd new sum r).1, first (runEnd new sum r).2 0) := by
  induction r generalizing p k sum with
  | nil =>
    obtain ⟨k, rfl⟩ : ∃ i, k = i + 1 := ⟨k - 1, by simp only [List.length_nil] at hk; omega⟩
    rfl
  | cons c r ih =>
    rw [List.length_cons] at hk
    rw [extent_cons] at hlt
    obtain ⟨k, rfl⟩ : ∃ i, k = i + 1 := ⟨k - 1, by omega⟩
    obtain ⟨hc, hr⟩ := hl
    have hch := hmiss c List.mem_cons_self
    have hsum : get (put m h .size sum) h .size = sum := by
      rw [get_put, if_pos rfl]
      exact Nat.mod_eq_of_lt (by simp only [Field.width]; omega)
    have hapart : ∀ v f, get (put m h .size v) c.addr f = get m c.addr f :=
      fun v f => get_put_apart (by omega)
    have hfree : get m c.addr .free ≠ 0 ↔ c.free = true := hc.free_ne_zero
    rw [first_cons, absorbLoop, runEnd]
    simp only [hsum, hapart, hc.size, hfree, hpos c List.mem_cons_self, ne_eq, not_false_eq_true,
      true_and, put_put, hc.next]
    by_cases hgo : c.free = true ∧ sum < new
    · rw [if_pos hgo, if_pos hgo, wadd_eq (a := sum) (by omega), wadd_eq (by omega)]
      exact ih hr (by omega) (fun d hd => hmiss d (List.mem_cons_of_mem _ hd))
        (fun d hd => hpos d (List.mem_cons_of_mem _ hd)) (by omega)
    · rw [if_neg hgo, if_neg hgo]
      rfl

/-- What the tests before the growth in place find, for a block that is too small. -/
theorem hasRoom_eq {m : Mem} (h : Chain kernelMagic R e m (l ++ b :: r)) {new : Nat}
    (hbig : b.size < new) :
    hasRoom m b.addr new = some (decide (new ≤ (runEnd new b.size r).1)) := by
  unfold hasRoom
  rw [h.stored.next, h.stored.size]
  cases r with
  | nil => simp [runEnd, Nat.not_le_of_lt hbig]
  | cons c t =>
    have h' : Chain kernelMagic R e m ((l ++ [b]) ++ c :: t) := by simpa using h
    have hc0 := h'.addr_ne_zero c (by simp)
    dsimp only
    rw [first_cons]
    by_cases hfree : c.free = true
    · have hspan := h.spread.spans.bounds
      have hlt := h.lt
      have hsum := sumLoop_eq new (k := 2 ^ 64) (linked_append.mp h'.linked).2
        (show b.size + extent 40 (c :: t) < 2 ^ 64 by omega)
        (fun d hd => h'.addr_ne_zero d (by simp [List.mem_cons.mp hd]))
        (by have := h'.length_lt; simp only [List.length_append, List.length_cons] at this ⊢; omega)
      rw [first_cons] at hsum
      rw [if_pos ⟨hc0, h'.stored.free_ne_zero.mpr hfree⟩, hsum, Option.map_some]
    · rw [if_neg fun hc => hfree (h'.stored.free_ne_zero.mp hc.2), runEnd,
        if_neg fun hc => hfree hc.1]
      simp [Nat.not_le_of_lt hbig]

/-- If there is room, the block behind is free. -/
theorem first_free_of_room {new : Nat} (hbig : b.size < new)
    (hroom : new ≤ (runEnd new b.size r).1) : ∃ c t, r = c :: t ∧ c.free = true := by
  cases r with
  | nil => exact absurd hroom (Nat.not_le_of_lt hbig)
  | cons c t =>
    refine ⟨c, t, rfl, ?_⟩
    by_contra hfree
    rw [runEnd, if_neg fun hc => hfree hc.1] at hroom
    exact absurd hroom (Nat.not_le_of_lt hbig)

/-- The second loop from the start: the block behind `b` is free, and `b` is too
small. -/
theorem absorbLoop_start {m : Mem} {c : Block} {t : List Block}
    (h : Chain kernelMagic R e m (l ++ b :: c :: t)) (hfree : c.free = true) {new : Nat}
    (hbig : b.size < new) :
    absorbLoop b.addr new (2 ^ 64) m (get m b.addr .next) =
      some (put m b.addr .size (runEnd new b.size (c :: t)).1,
        first (runEnd new b.size (c :: t)).2 0) := by
  have h' : Chain kernelMagic R e m ((l ++ [b]) ++ c :: t) := by simpa using h
  have hc := h'.stored
  have hspan := h.spread.spans.bounds
  have hlt := h.lt
  have hcb := h.spread.header (c := c) (by simp)
  rw [extent_cons] at hspan
  obtain ⟨k, hk⟩ : ∃ k, 2 ^ 64 = k + 1 := ⟨2 ^ 64 - 1, by omega⟩
  rw [hk, h.stored.next, first_cons, absorbLoop, h.stored.size, hc.size,
    if_pos ⟨h'.addr_ne_zero c (by simp), hc.free_ne_zero.mpr hfree, hbig⟩,
    wadd_eq (a := b.size) (by omega), wadd_eq (by omega), runEnd, if_pos ⟨hfree, hbig⟩]
  dsimp only
  rw [get_put_apart (by omega), hc.next]
  refine absorbLoop_eq (linked_append.mp h'.linked).2.2 (by omega)
    (fun d hd => h.spread.header (c := d) (by simp [hd]))
    (fun d hd => h'.addr_ne_zero d (by simp [hd])) ?_
  have := h'.length_lt
  simp only [List.length_append, List.length_cons] at this
  omega

/-- Growing in place: the blocks up to where the loops stop join `b`. -/
theorem growInPlace_eq (h : Chain kernelMagic R e s.mem (l ++ b :: r)) {new : Nat}
    (hbig : b.size < new) (hroom : new ≤ (runEnd new b.size r).1) :
    growInPlace s b.addr new = some ⟨(takeBlock kernelMagic
      { s.toHeap with
        mem := mergeBlock s.mem b.addr (runEnd new b.size r).1 (first (runEnd new b.size r).2 0) }
      b.addr new).1, s.brk⟩ := by
  obtain ⟨c, t, rfl, hfree⟩ := first_free_of_room hbig hroom
  have huse := useBlock_eq (n := new)
    (s := { s with mem := mergeBlock s.mem b.addr (runEnd new b.size (c :: t)).1
                            (first (runEnd new b.size (c :: t)).2 0) })
    (h.addr_ne_zero b (by simp))
  unfold growInPlace
  rw [absorbLoop_start h hfree hbig, Option.map_some]
  exact congrArg (fun t => some (⟨t, s.brk⟩ : KHeap)) huse

theorem growInPlace_to (h : Chain kernelMagic R e s.mem (l ++ b :: r)) {new : Nat}
    (hbig : b.size < new) (hroom : new ≤ (runEnd new b.size r).1) :
    ∃ s', growInPlace s b.addr new = some s' ∧ s'.brk = s.brk ∧
      ReallocTo kernelMagic s.toHeap l b r new s'.toHeap (b.addr + 40)
        (l ++ (cut { b with size := (runEnd new b.size r).1 } new ++ (runEnd new b.size r).2)) := by
  obtain ⟨w, heq, hwfree, hend⟩ := runEnd_split new b.size r
  exact ⟨_, growInPlace_eq h hbig hroom, rfl, .grow hbig heq hwfree hend hroom⟩

/-! ## Reallocation -/

theorem malloc_holds (h : Holds kernelMagic R s.toHeap live l) {n : Nat}
    (hn : n = 0 ∨ ¬ Expands R s (alignUp n)) :
    ∃ s' q l', malloc R s n = some (s', q) ∧
      Holds kernelMagic R s'.toHeap (if q = 0 then live else insert q live) l' := by
  rcases malloc_cases h hn with hnull | ⟨s', q, hsome, htook⟩
  · exact ⟨s, 0, l, hnull, h⟩
  · obtain ⟨l', hl', -, -⟩ := htook.holds
    refine ⟨s', q, l', hsome, ?_⟩
    rwa [if_neg htook.nonnull]

theorem moveBlock_to (h : Holds kernelMagic R s.toHeap live (l ++ b :: r))
    (hused : b.free = false) {new : Nat} (hbig : b.size < new) (halign : alignUp new = new)
    (hno : ¬ Expands R s new) :
    ∃ s' q l', moveBlock R s (b.addr + 40) new = some (s', q) ∧ s'.brk = s.brk ∧
      q ≠ b.addr + 40 ∧ ReallocTo kernelMagic s.toHeap l b r new s'.toHeap q l' := by
  unfold moveBlock
  rw [payloadToHeader_eq h.layout]
  rcases malloc_found h (n := new) (.inr (by rwa [halign])) with
    ⟨hnull, hzero | hnone⟩ | ⟨u₁, d, v₁, hlist, hfit, -, hsome⟩
  · omega
  · rw [halign] at hnone
    exact ⟨_, _, _, by rw [hnull]; rfl, rfl, by omega, .fail hbig hnone⟩
  · rw [halign] at hfit hsome
    have h₁ : Holds kernelMagic R s.toHeap live (u₁ ++ d :: v₁) := by rwa [← hlist]
    have ht := h₁.taken hfit
    have huse := useBlock_eq (s := s) (n := new) (h₁.layout.addr_ne_zero d (by simp))
    obtain ⟨hmem, hne⟩ := ht.used b (by rw [← hlist]; simp) hused
    obtain ⟨u₂, v₂, hsplit⟩ := List.append_of_mem hmem
    have hmove : ReallocTo kernelMagic s.toHeap l b r new _ _ _ := .move hbig hlist hfit hsplit
    rw [hsplit] at ht
    have hsize := ht.holds.layout.stored.size
    rw [← huse] at hmove hsize
    refine ⟨⟨copyAndFree kernelMagic (useBlock s d.addr new).toHeap (d.addr + 40) (b.addr + 40)
      b.size, s.brk⟩, d.addr + 40, release u₂ b v₂, ?_, ?_, by omega, ?_⟩
    · rw [hsome, Option.map_some, if_neg (by omega)]
      dsimp only
      rw [hsize, if_pos hbig]
      rfl
    · dsimp only
    · dsimp only
      exact hmove

theorem runEnd_of_le {new sum : Nat} (hle : new ≤ sum) (r : List Block) :
    runEnd new sum r = (sum, r) := by
  cases r with
  | nil => rfl
  | cons c t => rw [runEnd, if_neg fun hc => absurd hc.2 (Nat.not_lt_of_le hle)]

/-- What `realloc` does with a block when it gets no memory from `heap_expand`: it keeps its place
exactly when the free blocks behind it are enough, up to where the loops stop. -/
theorem realloc_to (h : Holds kernelMagic R c.heap.toHeap c.live (l ++ b :: r))
    (hused : b.free = false) {n : Nat} (hn : n ≠ 0)
    (hno : NoExpand R c (.realloc (b.addr + 40) n)) :
    ∃ s' q l', realloc R c.heap (b.addr + 40) n = some (s', q) ∧ s'.brk = c.heap.brk ∧
      ReallocTo kernelMagic c.heap.toHeap l b r (alignUp n) s'.toHeap q l' ∧
      (q = b.addr + 40 ↔ alignUp n ≤ (runEnd (alignUp n) b.size r).1) ∧
      (q = b.addr + 40 → l' = l ++ (cut { b with size := (runEnd (alignUp n) b.size r).1 }
        (alignUp n) ++ (runEnd (alignUp n) b.size r).2)) := by
  have hb := h.layout.stored
  unfold realloc
  rw [if_neg (by omega), if_neg hn, payloadToHeader_eq h.layout]
  simp only [hb.magic, hb.size, ne_eq, not_true_eq_false, if_false]
  by_cases hshrink : alignUp n ≤ b.size
  · rw [if_pos hshrink, splitBlock, if_neg (h.layout.addr_ne_zero b (by simp)),
      runEnd_of_le hshrink]
    exact ⟨_, _, _, rfl, rfl, .shrink hshrink, by simp [hshrink], fun _ => rfl⟩
  have hbig : b.size < alignUp n := Nat.lt_of_not_le hshrink
  rw [if_neg hshrink, hasRoom_eq h.layout.chain hbig, Option.bind_some]
  by_cases hroom : alignUp n ≤ (runEnd (alignUp n) b.size r).1
  · obtain ⟨s', hgrow, hbrk, hto⟩ := growInPlace_to h.layout.chain hbig hroom
    rw [if_pos (decide_eq_true hroom), hgrow]
    exact ⟨s', _, _, rfl, hbrk, hto, by simp [hroom], fun _ => rfl⟩
  · have hno' : ¬ Expands R c.heap (alignUp n) := by
      -- the other two ways out of `NoExpand` are excluded here
      rcases hno with hz | hexp | ⟨-, hle | htrue⟩
      · exact absurd hz hn
      · exact hexp
      · rw [h.blockSize_eq] at hle
        exact absurd hle hshrink
      · rw [payloadToHeader_eq h.layout, hasRoom_eq h.layout.chain hbig] at htrue
        exact absurd (of_decide_eq_true (Option.some.inj htrue)) hroom
    obtain ⟨s', q, l', hmove, hbrk, hne, hto⟩ :=
      moveBlock_to h hused hbig (alignUp_alignUp n) hno'
    rw [if_neg (by simpa using hroom)]
    exact ⟨s', q, l', hmove, hbrk, hto, iff_of_false hne hroom, fun he => absurd he hne⟩

theorem realloc_holds (h : Holds kernelMagic R c.heap.toHeap c.live l) {p n : Nat}
    (hp : p = 0 ∨ p ∈ c.live) (hno : NoExpand R c (.realloc p n)) :
    ∃ s' q l', realloc R c.heap p n = some (s', q) ∧
      Holds kernelMagic R s'.toHeap (liveAfterRealloc c.live p n q) l' := by
  rcases hp with rfl | hlive
  · simp only [liveAfterRealloc_null h.zero_notMem]
    refine malloc_holds h ?_
    rcases hno with hn | hn | hn
    · exact .inl hn
    · exact .inr hn
    · exact absurd rfl hn.1
  have hp0 : p ≠ 0 := fun hz => h.zero_notMem (hz ▸ hlive)
  by_cases hn : n = 0
  · obtain ⟨l', hl'⟩ := h.free_cases (.inr hlive)
    subst hn
    exact ⟨_, _, l', by rw [realloc, if_neg hp0, if_pos rfl], hl'⟩
  obtain ⟨u, b, v, rfl, hused, rfl⟩ := h.block hlive
  obtain ⟨s', q, l', hret, -, hto, -⟩ := realloc_to h hused hn hno
  exact ⟨s', q, l', hret, hto.holds h hused hn⟩

/-! ## Runs -/

theorem kernel_step (h : Holds kernelMagic R c.heap.toHeap c.live l) {o : Op}
    (ho : (kernel R).Permitted c o) (hno : NoExpand R c o) :
    ∃ c' l', (kernel R).step c o = some c' ∧ Holds kernelMagic R c'.heap.toHeap c'.live l' := by
  cases o with
  | malloc n =>
    obtain ⟨s', q, l', hret, hl'⟩ := malloc_holds h hno
    exact ⟨⟨s', if q = 0 then c.live else insert q c.live⟩, l',
      by simp [Allocator.step, kernel, hret], hl'⟩
  | free p =>
    obtain ⟨l', hl'⟩ := h.free_cases ho
    exact ⟨_, l', rfl, hl'⟩
  | realloc p n =>
    obtain ⟨s', q, l', hret, hl'⟩ := realloc_holds h ho.1 hno
    exact ⟨⟨s', liveAfterRealloc c.live p n q⟩, l', by simp [Allocator.step, kernel, hret], hl'⟩
  | write p off bs =>
    obtain ⟨hp, hoff⟩ := ho
    exact ⟨_, l, rfl, h.clientWrite hp hoff⟩

theorem kernelStart_holds (R : Region) (m : Mem) :
    Holds kernelMagic R (kernelStart R m).heap.toHeap (kernelStart R m).live
      [⟨R.lo, R.hi - R.lo - 40, true⟩] := by
  have h1 := R.lo_ge
  have h2 := R.room
  unfold kernelStart mallocInit
  rw [if_neg (by omega)]
  exact holds_firstBlock R m R.lo (by decide)

theorem kernel_run {m : Mem} {os : List Op}
    (hr : Run (kernel R).step (fun c o => (kernel R).Permitted c o ∧ NoExpand R c o)
      (kernelStart R m) os c) : ∃ l, Holds kernelMagic R c.heap.toHeap c.live l := by
  refine hr.keeps (I := fun c => ∃ l, Holds kernelMagic R c.heap.toHeap c.live l) ?_
    ⟨_, kernelStart_holds R m⟩
  rintro c o ⟨l, hl⟩ ho
  obtain ⟨c', l', hc', hl'⟩ := kernel_step hl ho.1 ho.2
  exact ⟨c', hc', l', hl'⟩

/-- In every run in which no call gets memory from `heap_expand`, live payloads
are separated in every state, and the next such call returns. -/
theorem kernel_heap_separation (R : Region) (m : Mem) {os : List Op} {c : Client KHeap}
    (hr : Run (kernel R).step (fun c o => (kernel R).Permitted c o ∧ NoExpand R c o)
      (kernelStart R m) os c) :
    Separated R c.heap.toHeap c.live ∧
    ∀ o, (kernel R).Permitted c o → NoExpand R c o → ∃ c', (kernel R).step c o = some c' := by
  obtain ⟨l, hl⟩ := kernel_run hr
  refine ⟨hl.separated, fun o ho hno => ?_⟩
  obtain ⟨c', -, hc', -⟩ := kernel_step hl ho hno
  exact ⟨c', hc'⟩

/-- A block grown over a free neighbour, and a request larger than the region. -/
def kernelDemo : List Op :=
  [.malloc 24, .malloc 40, .malloc 8, .free 0x200068, .realloc 0x200028 80, .malloc 0x8000000]

theorem kernel_heap_separation_demo :
    ∃ c, Run (kernel region128).step
        (fun c o => (kernel region128).Permitted c o ∧ NoExpand region128 c o)
        (kernelStart region128 fun _ => 0) kernelDemo c ∧
      c.live = {0x200028, 0x2000b8} ∧ Separated region128 c.heap.toHeap c.live := by
  have hexec : (exec (kernel region128).step
      (fun c o => (kernel region128).Permitted c o ∧ NoExpand region128 c o)
      (kernelStart region128 fun _ => 0) kernelDemo).map Client.live =
        some {0x200028, 0x2000b8} := by
    decide +kernel
  obtain ⟨c, hc, hlive⟩ := Option.map_eq_some_iff.mp hexec
  exact ⟨c, Run.of_exec hc, hlive, (kernel_heap_separation _ _ (Run.of_exec hc)).1⟩

/-- One block takes the whole region. The next request finds no free block, and
`heap_expand` puts a new one at the top of the region: its payload is the end of
the payload of the first. -/
theorem kernel_payloads_overlap :
    ∃ os c, Run (kernel region128).step (kernel region128).Permitted
        (kernelStart region128 fun _ => 0) os c ∧ ¬ Separated region128 c.heap.toHeap c.live := by
  have hexec : (exec (kernel region128).step (kernel region128).Permitted
      (kernelStart region128 fun _ => 0) [.malloc 0x7ffffd8, .malloc 8]).map
        (fun c => (c.live, blockSize c.heap.mem 0x200028)) =
        some ({0x200028, 0x81ffff8}, 0x7ffffd8) := by
    decide +kernel
  obtain ⟨c, hc, heq⟩ := Option.map_eq_some_iff.mp hexec
  obtain ⟨hlive, hsize⟩ := Prod.mk.inj heq
  refine ⟨_, c, Run.of_exec hc, fun hsep => ?_⟩
  have hapart := hsep.apart 0x200028 (by simp [hlive]) 0x81ffff8 (by simp [hlive]) (by decide)
  rw [hsize] at hapart
  omega

end KernelC.Malloc.Kernel
