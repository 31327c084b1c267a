import KernelC.Multitask.Conservation

/-!
# The first frame and its stack

`prepare_initial_stack` puts 22 quadwords below the end of the stack, cut to a multiple of
16. Neither it nor its two callers look at the size: a stack of less than 176 bytes, or of
less than 184 where it does not begin on a multiple of 16, is written below its start, into
the header of its block and what lies before that. The same happens for a size that
`align_up` turns into 0.

Result: `initial_frame_fits_iff`; `small_stack_header`.
-/

namespace KernelC.Multitask

open Malloc (Holds)
open Malloc.Kernel (kernelMagic)

variable {R : HeapRegions} {w v x : World} {k n p size : Nat}

/-- What a `malloc` of `n` bytes promises of the pointer `k` that it returns: it is
aligned and in high memory, and `align_up(n)` bytes from there on are memory. -/
structure Allocated (k n : Nat) : Prop where
  aligned : k % 8 = 0
  high : 0x100000 ≤ k
  room : k + Malloc.alignUp n ≤ 2 ^ 64

/-- The mallocs of a creation keep the promise. -/
theorem Got.allocated (h : Got R w n v p) (h8 : p % 8 = 0) : Allocated p n := by
  have hb := h.bounds
  have hlo := R.kernel.lo_ge
  exact ⟨h8, by omega, by omega⟩

/-- Where the first frame of a stack of `n` bytes at `k` is put. -/
def framePlace (k n : Nat) : Nat :=
  (prepareInitialStack (fun _ => 0) 0 ((k + n) % 2 ^ 64)).2

/-- The 22 quadwords lie in the stack. -/
def FrameInside (k n : Nat) : Prop :=
  ∀ i < 22, k ≤ slot (framePlace k n) i ∧ slot (framePlace k n) i + 8 ≤ k + n

theorem frameInside_iff (h : Allocated k n) (hn : n < 2 ^ 64) :
    FrameInside k n ↔ 176 + k % 16 ≤ n ∧ n ≤ 2 ^ 64 - 8 := by
  have h8 := h.aligned
  have hhigh := h.high
  have hroom := h.room
  unfold Malloc.alignUp Malloc.wadd at hroom
  unfold FrameInside slot framePlace prepareInitialStack
  dsimp only
  constructor
  · intro hin
    have hfirst := (hin 0 (by decide)).1
    omega
  · intro hfits i hi
    omega

/-- In any heap in which `k` is the pointer of a block with room for `n` bytes: every byte
of a header, and every byte of another block, is in `w'` what it is in `w`. -/
def OthersKept (R : HeapRegions) (w w' : World) (k n : Nat) : Prop :=
  ∀ live l, Holds kernelMagic R.kernel w.kernel.heap.toHeap live l →
    (∃ b ∈ l, b.addr + 40 = k ∧ Malloc.alignUp n ≤ b.size) →
      ∀ d ∈ l, ∀ a, d.addr ≤ a → a < d.addr + 40 + d.size →
        (a < d.addr + 40 ∨ d.addr + 40 ≠ k) → w'.kernel.heap.mem a = w.kernel.heap.mem a

/-- A write that stays in the block at `k`. -/
theorem othersKept_writeKernel {sp : Nat} {bs : List UInt8} {w' : World}
    (hw' : w'.kernel = writeKernel w.kernel sp bs)
    (hin : k ≤ sp ∧ sp + bs.length ≤ k + Malloc.alignUp n) : OthersKept R w w' k n := by
  rintro live l hl ⟨b, hb, rfl, hsize⟩ d hd a hlo hhi hother
  rw [hw']
  refine store_of_outside ?_
  by_cases hdb : d = b
  · subst hdb
    omega
  · have hapart := hl.layout.tiles.apart hd hb hdb
    omega

/-- The frame of a creation is written where `framePlace` says. -/
theorem addTask_kernel (w : World) (entry size mem memSize t k : Nat) :
    (w.addTask entry size mem memSize t k).1.kernel =
      writeKernel w.kernel (framePlace k (kstackSize size))
        (frameBytes entry ((k + kstackSize size) % 2 ^ 64)) :=
  rfl

/-- The frame lies in one piece: it does not go around the end of the memory. -/
theorem Allocated.framePlace_inside (h : Allocated k n) (hn : 176 + k % 16 ≤ n ∧ n ≤ 2 ^ 64 - 8) :
    k ≤ framePlace k n ∧ framePlace k n + 176 ≤ k + n :=
  frame_inside ((stackFits_iff h.aligned).mpr hn) h.room _ _

theorem Allocated.others_kept (h : Allocated k (kstackSize size))
    (hn : 176 + k % 16 ≤ kstackSize size ∧ kstackSize size ≤ 2 ^ 64 - 8)
    (entry mem memSize t : Nat) :
    OthersKept R w (w.addTask entry size mem memSize t k).1 k (kstackSize size) := by
  have hplace := h.framePlace_inside hn
  have hle := Malloc.le_alignUp hn.2
  refine othersKept_writeKernel (addTask_kernel w entry size mem memSize t k) ?_
  rw [frameBytes_length]
  omega

/-- A creation with a stack of `stack_size` bytes at `k`, in any state: the first frame lies
in the stack, and no header and no other block changes, if and only if the size is 0 (for
`KSTACK_SIZE`) or leaves room for 22 quadwords below the last multiple of 16 in reach. The
bound is 176 bytes for a stack that begins on a multiple of 16 and 184 for another; above
`2 ^ 64 - 8` it is `align_up` that wraps. -/
theorem initial_frame_fits_iff (R : HeapRegions) (w : World) (entry mem memSize t : Nat)
    (hk : Allocated k (kstackSize size)) (hsize : size < 2 ^ 64) :
    (FrameInside k (kstackSize size) ∧
      OthersKept R w (w.addTask entry size mem memSize t k).1 k (kstackSize size)) ↔
    size = 0 ∨ 176 + k % 16 ≤ size ∧ size ≤ 2 ^ 64 - 8 := by
  have hlt : kstackSize size < 2 ^ 64 := by
    unfold kstackSize
    split <;> omega
  have hcond : (176 + k % 16 ≤ kstackSize size ∧ kstackSize size ≤ 2 ^ 64 - 8) ↔
      size = 0 ∨ 176 + k % 16 ≤ size ∧ size ≤ 2 ^ 64 - 8 := by
    have h16 := Nat.mod_lt k (show 0 < 16 by decide)
    unfold kstackSize
    split <;> omega
  rw [← hcond, frameInside_iff hk hlt]
  exact ⟨fun h => h.1, fun h => ⟨h, hk.others_kept h entry mem memSize t⟩⟩

/-- The second malloc of a creation. -/
theorem got_stack {N : List Nat} {t k : Nat} (hL : Ledger R w N) (hno : NoGrowth R w size)
    (hv : w.malloc R 72 = some (v, t)) (ht0 : t ≠ 0)
    (hx : v.malloc R (kstackSize size) = some (x, k)) (hk0 : k ≠ 0) :
    Got R v (kstackSize size) x k := by
  obtain ⟨bl, hbl, -⟩ := (got_of_malloc hL.kernelHeap hno.1 hv ht0).heap
  exact got_of_malloc ⟨bl, hbl⟩ (hno.2 _ hv ht0) hx hk0

/-- The state at boot, with 128 MiB for each heap. -/
def bootWorld : World := World.start heaps128 (fun _ => noTask) (fun _ => 0) (fun _ => 0) fun _ => 0

/-- The heap of a creation with 184 bytes for the stack, next to a block of a client. -/
theorem initial_frame_fits_beside :
    ∃ w v x, Run (World.step heaps128) (World.Permitted heaps128) bootWorld
        [.kernelHeap (.malloc 100), .kernelHeap (.write 0x200028 0 [1, 2, 3])] w ∧
      w.malloc heaps128 72 = some (v, 0x2000b8) ∧
      v.malloc heaps128 (kstackSize 184) = some (x, 0x200128) ∧
      FrameInside 0x200128 (kstackSize 184) ∧
      OthersKept heaps128 x (x.addTask 0x1000 184 0 0 0x2000b8 0x200128).1 0x200128
        (kstackSize 184) ∧
      load (x.addTask 0x1000 184 0 0 0x2000b8 0x200128).1.kernel.heap.mem 0x200028 3 =
        [1, 2, 3] := by
  have hexec : ((exec (World.step heaps128) (World.Permitted heaps128) bootWorld
      [.kernelHeap (.malloc 100), .kernelHeap (.write 0x200028 0 [1, 2, 3])]).bind fun w =>
      (w.malloc heaps128 72).bind fun r => (r.1.malloc heaps128 (kstackSize 184)).map fun q =>
        (decide (NoGrowth heaps128 w 184), [r.2, q.2], Malloc.blockList q.1.kernel.heap.toHeap,
          load q.1.kernel.heap.mem 0x200028 3)) =
      some (true, [0x2000b8, 0x200128], some [⟨0x200000, 104, false⟩, ⟨0x200090, 72, false⟩,
        ⟨0x200100, 184, false⟩, ⟨0x2001e0, 0x7fffdf8, true⟩], [1, 2, 3]) := by
    decide +kernel
  obtain ⟨w, hw, hexec⟩ := Option.bind_eq_some_iff.mp hexec
  obtain ⟨⟨v, t⟩, hv, hexec⟩ := Option.bind_eq_some_iff.mp hexec
  obtain ⟨⟨x, k⟩, hx, hval⟩ := Option.map_eq_some_iff.mp hexec
  simp only [Prod.mk.injEq, decide_eq_true_eq, List.cons.injEq, and_true] at hval
  obtain ⟨hno, ⟨rfl, rfl⟩, hlist, hbytes⟩ := hval
  obtain ⟨l, z, -, hL⟩ := World.run_sound (Run.of_exec hw)
  have hgot := got_stack hL hno hv (by decide) hx (by decide)
  obtain ⟨bl, hbl, hstack⟩ := hgot.heap
  have hk := hgot.allocated (by decide)
  obtain ⟨hin, hkept⟩ := (initial_frame_fits_iff heaps128 x 0x1000 0 0 0x2000b8 hk (by decide)).mpr
    (by decide)
  refine ⟨w, v, x, Run.of_exec hw, hv, hx, hin, hkept, ?_⟩
  rw [← hbytes]
  refine load_congr fun a ha hlt => ?_
  have hclient : (⟨0x200000, 104, false⟩ : Block) ∈ bl := by
    rw [Malloc.blockList_eq hbl.layout hbl.head, Option.some.injEq] at hlist
    simp [hlist]
  exact hkept _ bl hbl hstack _ hclient a (by dsimp only; omega) (by dsimp only; omega)
    (.inr (by decide))

/-- `task_create(entry, 8)` at boot: both mallocs succeed, and the frame of the new task goes
from 0x1ffff0 on, over the headers of its record and of its stack, and over the record. -/
theorem small_stack_header :
    ∃ v x w', bootWorld.malloc heaps128 72 = some (v, 0x200028) ∧
      v.malloc heaps128 (kstackSize 8) = some (x, 0x200098) ∧
      bootWorld.createTask heaps128 0x1000 8 0 0 = some (w', 1) ∧
      Allocated 0x200098 (kstackSize 8) ∧ ¬ FrameInside 0x200098 (kstackSize 8) ∧
      ∀ a ∈ [0x200000, 0x200070], Malloc.get x.kernel.heap.mem a .magic = kernelMagic ∧
        Malloc.get w'.kernel.heap.mem a .magic ≠ kernelMagic := by
  have hboth : ((bootWorld.malloc heaps128 72).bind fun r =>
      (r.1.malloc heaps128 (kstackSize 8)).bind fun r' =>
      (bootWorld.createTask heaps128 0x1000 8 0 0).map fun r'' => (r.2, r'.2, r''.2,
        [0x200000, 0x200070].map fun a =>
          (Malloc.get r'.1.kernel.heap.mem a .magic, Malloc.get r''.1.kernel.heap.mem a .magic))) =
      some (0x200028, 0x200098, 1, [(kernelMagic, 0), (kernelMagic, 0)]) := by
    decide +kernel
  obtain ⟨⟨v, t⟩, hv, hboth⟩ := Option.bind_eq_some_iff.mp hboth
  obtain ⟨⟨x, k⟩, hx, hboth⟩ := Option.bind_eq_some_iff.mp hboth
  obtain ⟨⟨w', r⟩, hw', hval⟩ := Option.map_eq_some_iff.mp hboth
  have hk : Allocated 0x200098 (kstackSize 8) := ⟨by decide, by decide, by decide⟩
  simp only [List.map_cons, List.map_nil, Prod.mk.injEq, List.cons.injEq, and_true] at hval
  obtain ⟨rfl, rfl, rfl, ⟨hrecord, hrecord'⟩, hstack, hstack'⟩ := hval
  refine ⟨v, x, w', hv, hx, hw', hk, ?_, ?_⟩
  · rw [frameInside_iff hk (by decide)]
    decide
  · simp [hrecord, hrecord', hstack, hstack', kernelMagic]

end KernelC.Multitask
