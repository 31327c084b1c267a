import KernelC.Lib.BlockList
import KernelC.Lib.ByteMem
import KernelC.Lib.Run
import Mathlib.Data.Finset.Basic

/-!
# The block list of `malloc/malloc.c` and `malloc/user_malloc.c`

The two allocators share their header layout and most of their functions; they
differ in the magic number, in `realloc` and in what happens when no block
fits. This module holds the shared part, with the magic number as a parameter.

Addresses and sizes are 64-bit numbers: `wadd` and `wsub` are the machine's
addition and subtraction. A header takes 40 bytes
(`sizeof(block_header_t)`), and `MIN_SPLIT_SIZE` is 48. A loop over the list
gets a bound on its iterations; `none` stands for a call that does not return.
-/

namespace KernelC.Malloc

def wadd (a b : Nat) : Nat := (a + b) % 2 ^ 64

def wsub (a b : Nat) : Nat := (a + (2 ^ 64 - b)) % 2 ^ 64

theorem wadd_eq {a b : Nat} (h : a + b < 2 ^ 64) : wadd a b = a + b := Nat.mod_eq_of_lt h

theorem wsub_eq {a b : Nat} (h : b ≤ a) (ha : a < 2 ^ 64) : wsub a b = a - b := by
  unfold wsub
  omega

/-- The fields of `block_header_t`. -/
inductive Field
  | magic | size | free | prev | next
deriving DecidableEq

namespace Field

def offset : Field → Nat
  | magic => 0
  | size => 8
  | free => 16
  | prev => 24
  | next => 32

def width : Field → Nat
  | magic => 4
  | size => 8
  | free => 4
  | prev => 8
  | next => 8

end Field

/-- `h->f`. -/
def get (m : Mem) (h : Nat) (f : Field) : Nat := readLE m (h + f.offset) f.width

/-- `h->f = v`. -/
def put (m : Mem) (h : Nat) (f : Field) (v : Nat) : Mem := writeLE m (h + f.offset) f.width v

/-- `if (n) n->prev = v`. -/
def linkPrev (m : Mem) (n v : Nat) : Mem := if n ≠ 0 then put m n .prev v else m

/-- The memory and the two ends of the block list (`heap_head`, `heap_tail` and
`user_head`, `user_tail`). -/
structure Heap where
  mem : Mem
  head : Nat
  tail : Nat

/-- `(n + (ALIGN - 1)) & ~(ALIGN - 1)`: the mask clears the low three bits. -/
def alignUp (n : Nat) : Nat := wadd n 7 / 8 * 8

theorem alignUp_alignUp (n : Nat) : alignUp (alignUp n) = alignUp n := by
  unfold alignUp wadd
  omega

theorem alignUp_mod (n : Nat) : alignUp n % 8 = 0 := by
  unfold alignUp
  omega

theorem alignUp_lt (n : Nat) : alignUp n < 2 ^ 64 := by
  unfold alignUp wadd
  omega

theorem le_alignUp {n : Nat} (hn : n ≤ 2 ^ 64 - 8) : n ≤ alignUp n := by
  unfold alignUp
  rw [wadd_eq (by omega)]
  omega

def headerToPayload (h : Nat) : Nat := wadd h 40

def payloadToHeader (p : Nat) : Nat := wsub p 40

def splitBlock (magic : Nat) (s : Heap) (h req : Nat) : Heap :=
  if get s.mem h .size < wadd req 48 then s
  else
    let newh := wadd (headerToPayload h) req
    let m := put s.mem newh .magic magic
    let m := put m newh .free 1
    let m := put m newh .size (wsub (wsub (get m h .size) req) 40)
    let m := put m newh .prev h
    let m := put m newh .next (get m h .next)
    let m := linkPrev m (get m newh .next) newh
    let m := put m h .next newh
    let m := put m h .size req
    { s with mem := m, tail := if s.tail = h then newh else s.tail }

/-- The block `a` takes over its successor `n`: the assignments that both halves
of `coalesce` and the growth in place of `user_realloc` make. -/
def absorb (m : Mem) (a n : Nat) : Mem :=
  let m := put m a .size (wadd (wadd (get m a .size) 40) (get m n .size))
  let m := put m a .next (get m n .next)
  linkPrev m (get m n .next) a

def coalesceNext (s : Heap) (h : Nat) : Heap :=
  let n := get s.mem h .next
  if n ≠ 0 ∧ get s.mem n .free ≠ 0 then
    { s with mem := absorb s.mem h n, tail := if s.tail = n then h else s.tail }
  else s

def coalescePrev (s : Heap) (h : Nat) : Heap :=
  let p := get s.mem h .prev
  if p ≠ 0 ∧ get s.mem p .free ≠ 0 then
    { s with mem := absorb s.mem p h, tail := if s.tail = h then p else s.tail }
  else s

def coalesce (s : Heap) (h : Nat) : Heap :=
  if h = 0 then s else coalescePrev (coalesceNext s h) h

def findFitLoop (m : Mem) (size : Nat) : Nat → Nat → Option Nat
  | 0, _ => none
  | k + 1, cur =>
    if cur = 0 then some 0
    else if get m cur .free ≠ 0 ∧ size ≤ get m cur .size then some cur
    else findFitLoop m size k (get m cur .next)

def findFit (s : Heap) (size : Nat) : Option Nat := findFitLoop s.mem size (2 ^ 64) s.head

/-- The end of `malloc` and `user_malloc`, with a block found: split it, mark it
used, return its payload. -/
def takeBlock (magic : Nat) (s : Heap) (fit size : Nat) : Heap × Nat :=
  let s := splitBlock magic s fit size
  ({ s with mem := put s.mem fit .free 0 }, headerToPayload fit)

/-- `free` and `user_free`. -/
def freeBlock (magic : Nat) (s : Heap) (ptr : Nat) : Heap :=
  if ptr = 0 then s
  else
    let h := payloadToHeader ptr
    if get s.mem h .magic ≠ magic then s
    else if get s.mem h .free ≠ 0 then s
    else coalesce { s with mem := put s.mem h .free 1 } h

/-- The first block of a region: the assignments of `malloc_init` and
`user_malloc_init`. -/
def firstBlock (magic : Nat) (m : Mem) (h size : Nat) : Mem :=
  let m := put m h .magic magic
  let m := put m h .size (wsub size 40)
  let m := put m h .free 1
  let m := put m h .next 0
  put m h .prev 0

/-- `umalloc_stats_t`. -/
structure Stats where
  totalManaged : Nat
  usedPayload : Nat
  freePayload : Nat
  largestFree : Nat
  numBlocks : Nat
  numUsed : Nat
  numFree : Nat
deriving DecidableEq

/-- What the loop of the statistics does at a block. -/
def Stats.count (st : Stats) (size : Nat) (free : Bool) : Stats :=
  let st := { st with
    numBlocks := wadd st.numBlocks 1
    totalManaged := wadd st.totalManaged (wadd 40 size) }
  if free then
    { st with
      numFree := wadd st.numFree 1
      freePayload := wadd st.freePayload size
      largestFree := if size > st.largestFree then size else st.largestFree }
  else
    { st with
      numUsed := wadd st.numUsed 1
      usedPayload := wadd st.usedPayload size }

def statsLoop (m : Mem) : Nat → Nat → Stats → Option Stats
  | 0, _, _ => none
  | k + 1, cur, st =>
    if cur = 0 then some st
    else
      statsLoop m k (get m cur .next) (st.count (get m cur .size) (get m cur .free ≠ 0))

def stats (s : Heap) : Option Stats := statsLoop s.mem (2 ^ 64) s.head ⟨0, 0, 0, 0, 0, 0, 0⟩

/-! ## Clients

A client calls the allocator and writes into the payloads it holds. The pointers
it holds are recorded beside the heap: returned, and not yet freed or moved. -/

/-- The size of the block whose payload is at `p`. -/
def blockSize (m : Mem) (p : Nat) : Nat := get m (payloadToHeader p) .size

/-- A heap and the pointers that are live. -/
structure Client (σ : Type) where
  heap : σ
  live : Finset Nat

inductive Op
  | malloc (n : Nat)
  | free (p : Nat)
  | realloc (p n : Nat)
  | write (p off : Nat) (bs : List UInt8)

/-- An allocator: its three calls on a heap of type `σ`, which holds the memory
that clients write to. -/
structure Allocator (σ : Type) where
  mem : σ → Mem
  setMem : σ → Mem → σ
  malloc : σ → Nat → Option (σ × Nat)
  free : σ → Nat → σ
  realloc : σ → Nat → Nat → Option (σ × Nat)

/-- The pointers that are live after a reallocation of `p` to `n` bytes that
returned `q`. -/
def liveAfterRealloc (live : Finset Nat) (p n q : Nat) : Finset Nat :=
  if q ≠ 0 then insert q (live.erase p) else if n = 0 then live.erase p else live

namespace Allocator

variable {σ : Type} (A : Allocator σ)

def step (c : Client σ) : Op → Option (Client σ)
  | .malloc n => (A.malloc c.heap n).map fun r =>
      ⟨r.1, if r.2 = 0 then c.live else insert r.2 c.live⟩
  | .free p => some ⟨A.free c.heap p, c.live.erase p⟩
  | .realloc p n => (A.realloc c.heap p n).map fun r =>
      ⟨r.1, liveAfterRealloc c.live p n r.2⟩
  | .write p off bs =>
      some { c with heap := A.setMem c.heap (store (A.mem c.heap) (p + off) bs) }

/-- The calls a client may make: sizes are 64-bit numbers, pointers are NULL or
live, and writes stay inside a live payload. -/
def Permitted (c : Client σ) : Op → Prop
  | .malloc n => n < 2 ^ 64
  | .free p => p = 0 ∨ p ∈ c.live
  | .realloc p n => (p = 0 ∨ p ∈ c.live) ∧ n < 2 ^ 64
  | .write p off bs => p ∈ c.live ∧ off + bs.length ≤ blockSize (A.mem c.heap) p

instance (c : Client σ) : (o : Op) → Decidable (A.Permitted c o)
  | .malloc n => inferInstanceAs (Decidable (n < 2 ^ 64))
  | .free p => inferInstanceAs (Decidable (p = 0 ∨ p ∈ c.live))
  | .realloc p n => inferInstanceAs (Decidable ((p = 0 ∨ p ∈ c.live) ∧ n < 2 ^ 64))
  | .write p off bs =>
    inferInstanceAs (Decidable (p ∈ c.live ∧ off + bs.length ≤ blockSize (A.mem c.heap) p))

end Allocator

end KernelC.Malloc
