import KernelC.Malloc.Data
import KernelC.Malloc.Tail

/-!
# The size of what is allocated

A block that `malloc`, `realloc` and their user counterparts return holds
`align_up(n)` bytes, whatever the state of the memory is: the last assignment to
its size stores just that, or its size was found to be enough. `align_up` adds in
64 bits: above 2^64 - 8 it is 0, and the block returned is smaller than `n`.

Result: `allocation_sized_iff`; `malloc_undersized`.
-/

namespace KernelC.Malloc

open Block

variable {magic : Nat} {R : Region} {s s' : Heap} {live : Finset Nat} {l : List Block} {m : Mem}

/-! ## The block that is taken -/

theorem findFitLoop_found {size k cur fit : Nat} (hcur : cur < 2 ^ 64)
    (h : findFitLoop m size k cur = some fit) (hfit : fit ≠ 0) :
    fit < 2 ^ 64 ∧ size ≤ get m fit .size := by
  induction k generalizing cur with
  | zero => cases h
  | succ k ih =>
    rw [findFitLoop] at h
    split at h
    · exact absurd (Option.some.inj h).symm hfit
    · split at h
      · next hgood =>
        obtain rfl := Option.some.inj h
        exact ⟨hcur, hgood.2⟩
      · exact ih (get_lt m cur .next) h

/-- What `size` a block has after `req` bytes of it were taken. -/
theorem takeBlock_size {h req : Nat} (hreq : req < 2 ^ 64) (hfit : req ≤ get s.mem h .size) :
    req ≤ get (takeBlock magic s h req).1.mem h .size ∧
      (get (takeBlock magic s h req).1.mem h .size = req ∨
        get (takeBlock magic s h req).1.mem h .size < wadd req 48) := by
  unfold takeBlock splitBlock
  dsimp only
  split
  · next hsmall =>
    rw [get_put, if_neg (by decide)]
    exact ⟨hfit, .inr hsmall⟩
  · have hlast : req % 256 ^ Field.size.width = req := Nat.mod_eq_of_lt hreq
    rw [get_put, if_neg (by decide), get_put, if_pos rfl, hlast]
    exact ⟨Nat.le_refl req, .inl rfl⟩

theorem payloadToHeader_headerToPayload {h : Nat} (hh : h < 2 ^ 64) :
    payloadToHeader (headerToPayload h) = h := by
  unfold payloadToHeader headerToPayload wsub wadd
  omega

theorem alignUp_of_gt {n : Nat} (hn : n < 2 ^ 64) (hbig : 2 ^ 64 - 8 < n) : alignUp n = 0 := by
  unfold alignUp wadd
  omega

/-- A size that is `align_up(n)` or a little more is enough unless `align_up` wraps. -/
theorem sized_iff {n size : Nat} (hn : n < 2 ^ 64) (hlarge : alignUp n ≤ size)
    (htight : size = alignUp n ∨ size < wadd (alignUp n) 48) : n ≤ size ↔ n ≤ 2 ^ 64 - 8 := by
  constructor
  · intro hle
    by_contra hbig
    rw [alignUp_of_gt hn (by omega), wadd_eq (by omega)] at htight
    omega
  · exact fun hle => Nat.le_trans (le_alignUp hle) hlarge

/-- A block of the list lies below `2 ^ 64` with its payload. -/
theorem Chain.sized_iff {e : Nat} (h : Chain magic R e m l) {b : Block} (hb : b ∈ l) {n : Nat}
    (hlarge : alignUp n ≤ b.size) :
    n ≤ blockSize m (b.addr + 40) ↔ n ≤ 2 ^ 64 - 8 := by
  have hbd := h.bounds hb
  obtain ⟨u, v, rfl⟩ := List.append_of_mem hb
  rw [h.blockSize_eq]
  constructor
  · intro hle
    omega
  · exact fun hle => Nat.le_trans (le_alignUp hle) hlarge

theorem Resized.sized_iff {u v l' : List Block} {b : Block} {n q e : Nat}
    (hr : Resized u b v (alignUp n) q l') (h : Chain magic R e m l') (hused : b.free = false)
    (hq : q ≠ 0) : n ≤ blockSize m q ↔ n ≤ 2 ^ 64 - 8 := by
  obtain ⟨d, hd, rfl, -, hlarge⟩ := hr.large hused hq
  exact h.sized_iff hd hlarge

theorem ReallocTo.sized_iff {u v l' : List Block} {b : Block} {n q : Nat}
    (hr : ReallocTo magic s u b v (alignUp n) s' q l') (h : Holds magic R s live (u ++ b :: v))
    (hused : b.free = false) (hn : n ≠ 0) (hq : q ≠ 0) :
    n ≤ blockSize s'.mem q ↔ n ≤ 2 ^ 64 - 8 := by
  exact (hr.resized h hused).sized_iff (hr.holds h hused hn).layout.chain hused hq

/-! ## The user heap -/

theorem userMalloc_sized_iff (h : Holds userMagic R s live l) {n q : Nat}
    (hret : userMalloc R s n = some (s', q)) (hq : q ≠ 0) :
    n ≤ blockSize s'.mem q ↔ n ≤ 2 ^ 64 - 8 := by
  rcases userMalloc_found h n with ⟨hnull, -⟩ | ⟨u, d, v, rfl, hfit, -, hsome⟩
  · rw [hnull] at hret
    cases hret
    exact absurd rfl hq
  · rw [hsome, Option.some.injEq, Prod.mk.injEq] at hret
    obtain ⟨rfl, rfl⟩ := hret
    have ht := h.taken hfit
    obtain ⟨d', hd', haddr, -, hlarge⟩ := ht.block
    have hiff := ht.holds.layout.chain.sized_iff hd' hlarge
    rwa [haddr] at hiff

theorem userRealloc_sized_iff (h : Holds userMagic R s live l) {p n q : Nat}
    (hp : p = 0 ∨ p ∈ live) (hret : userRealloc R s p n = some (s', q)) (hq : q ≠ 0) :
    n ≤ blockSize s'.mem q ↔ n ≤ 2 ^ 64 - 8 := by
  rcases hp with rfl | hlive
  · exact userMalloc_sized_iff h hret hq
  obtain ⟨u, b, v, rfl, hused, rfl⟩ := h.block hlive
  by_cases hn : n = 0
  · rw [userRealloc, if_neg (by omega), if_pos hn] at hret
    cases hret
    exact absurd rfl hq
  · obtain ⟨t, q', l', hret', hto⟩ := userRealloc_to h hused hn
    rw [hret', Option.some.injEq, Prod.mk.injEq] at hret
    obtain ⟨rfl, rfl⟩ := hret
    exact hto.sized_iff h hused hn hq

/-! ## The kernel heap -/

namespace Kernel

variable {s s' : KHeap} {c c' : Client KHeap}

theorem heapExpand_head (hs : s.head ≠ 0) (size : Nat) : (heapExpand R s size).1.head = s.head := by
  rcases heapExpand_cases R s size with ⟨-, hret⟩ | ⟨-, hret⟩
  · rw [hret]
  · rw [hret]
    exact if_neg hs

/-- The loop of `malloc`, in any memory: a block it returns is large enough. -/
theorem mallocLoop_found {size k fit : Nat} (hs : s.head = R.lo)
    (h : mallocLoop R size k s = some (s', fit)) :
    s'.head = R.lo ∧ (fit ≠ 0 → fit < 2 ^ 64 ∧ size ≤ get s'.mem fit .size) := by
  have hlo := R.lo_ge
  have hroom := R.room
  have hhi := R.hi_lt
  induction k generalizing s with
  | zero => cases h
  | succ k ih =>
    rw [mallocLoop] at h
    obtain ⟨fit', hfind, h⟩ := Option.bind_eq_some_iff.mp h
    split at h
    · cases h
      exact ⟨hs, fun hfit => findFitLoop_found (by omega) hfind hfit⟩
    · dsimp only at h
      have hhead := heapExpand_head (R := R) (s := s) (by omega) size
      split at h
      · exact ih (hhead.trans hs) h
      · cases h
        exact ⟨hhead.trans hs, fun hfit => absurd rfl hfit⟩

theorem useBlock_head (h size : Nat) : (useBlock s h size).head = s.head := by
  unfold useBlock splitBlock
  split
  · rfl
  · exact splitBlock_head h size

theorem malloc_head (hs : s.head = R.lo) {n q : Nat} (h : malloc R s n = some (s', q)) :
    s'.head = R.lo := by
  unfold malloc at h
  split at h
  · cases h
    exact hs
  · obtain ⟨⟨t, fit⟩, hloop, h⟩ := Option.map_eq_some_iff.mp h
    have hhead := (mallocLoop_found hs hloop).1
    dsimp only at h
    split at h
    · cases h
      exact hhead
    · rw [Prod.mk.injEq] at h
      rw [← h.1, useBlock_head]
      exact hhead

theorem malloc_sized_iff (hs : s.head = R.lo) {n q : Nat} (hn : n < 2 ^ 64)
    (h : malloc R s n = some (s', q)) (hq : q ≠ 0) :
    n ≤ blockSize s'.mem q ↔ n ≤ 2 ^ 64 - 8 := by
  unfold malloc at h
  split at h
  · cases h
    exact absurd rfl hq
  · obtain ⟨⟨t, fit⟩, hloop, h⟩ := Option.map_eq_some_iff.mp h
    dsimp only at h
    split at h
    · cases h
      exact absurd rfl hq
    · next hfit =>
      rw [Prod.mk.injEq] at h
      obtain ⟨rfl, rfl⟩ := h
      obtain ⟨-, hfound⟩ := mallocLoop_found hs hloop
      obtain ⟨hlt, hsize⟩ := hfound hfit
      have htaken := useBlock_eq (s := t) (n := alignUp n) hfit ▸
        takeBlock_size (s := t.toHeap) (alignUp_lt n) hsize
      rw [blockSize, payloadToHeader_headerToPayload hlt]
      exact Malloc.sized_iff hn htaken.1 htaken.2

/-! ### The head of the list, over runs with expansions -/

theorem free_head (p : Nat) : (free s p).head = s.head := freeBlock_head p

theorem growInPlace_head {h new : Nat} (hret : growInPlace s h new = some s') :
    s'.head = s.head := by
  unfold growInPlace at hret
  obtain ⟨r, -, rfl⟩ := Option.map_eq_some_iff.mp hret
  exact useBlock_head h new

theorem moveBlock_head (hs : s.head = R.lo) {p new q : Nat}
    (h : moveBlock R s p new = some (s', q)) : s'.head = R.lo := by
  unfold moveBlock at h
  obtain ⟨⟨t, q'⟩, hmalloc, h⟩ := Option.map_eq_some_iff.mp h
  have hhead := malloc_head hs hmalloc
  dsimp only at h
  split at h
  · cases h
    exact hhead
  · rw [Prod.mk.injEq] at h
    rw [← h.1, free_head]
    exact hhead

theorem realloc_head (hs : s.head = R.lo) {p n q : Nat} (h : realloc R s p n = some (s', q)) :
    s'.head = R.lo := by
  unfold realloc at h
  split at h
  · exact malloc_head hs h
  · split at h
    · cases h
      exact (free_head p).trans hs
    · dsimp only at h
      split at h
      · cases h
        exact hs
      · split at h
        · rw [Option.some.injEq, Prod.mk.injEq] at h
          rw [← h.1, ← hs]
          unfold splitBlock
          split
          · rfl
          · exact splitBlock_head _ _
        · obtain ⟨room, -, h⟩ := Option.bind_eq_some_iff.mp h
          split at h
          · obtain ⟨t, hgrow, h⟩ := Option.map_eq_some_iff.mp h
            rw [Prod.mk.injEq] at h
            rw [← h.1, growInPlace_head hgrow]
            exact hs
          · exact moveBlock_head hs h

theorem kernel_head {m : Mem} {os : List Op}
    (hr : Run (kernel R).step (kernel R).Permitted (kernelStart R m) os c) :
    c.heap.head = R.lo := by
  refine hr.invariant (I := fun c => c.heap.head = R.lo) ?_ (kernelStart_holds R m).head
  intro c o c' hs _ hstep
  cases o with
  | malloc n =>
    obtain ⟨⟨t, q⟩, hret, rfl⟩ := Option.map_eq_some_iff.mp hstep
    exact malloc_head hs hret
  | free p =>
    cases hstep
    exact (free_head p).trans hs
  | realloc p n =>
    obtain ⟨⟨t, q⟩, hret, rfl⟩ := Option.map_eq_some_iff.mp hstep
    exact realloc_head hs hret
  | write p off bs =>
    cases hstep
    exact hs

theorem realloc_sized_iff (h : Holds kernelMagic R c.heap.toHeap c.live l) {p n q : Nat}
    (hp : p ∈ c.live) (hno : NoExpand R c (.realloc p n))
    (hret : realloc R c.heap p n = some (s', q)) (hq : q ≠ 0) :
    n ≤ blockSize s'.mem q ↔ n ≤ 2 ^ 64 - 8 := by
  obtain ⟨u, b, v, rfl, hused, rfl⟩ := h.block hp
  by_cases hn : n = 0
  · rw [realloc, if_neg (by omega), if_pos hn] at hret
    cases hret
    exact absurd rfl hq
  · obtain ⟨t, q', l', hret', -, hto, -⟩ := realloc_to h hused hn hno
    rw [hret', Option.some.injEq, Prod.mk.injEq] at hret
    obtain ⟨rfl, rfl⟩ := hret
    exact hto.sized_iff h hused hn hq

/-- The same where `realloc` may get memory from `heap_expand`. -/
theorem tidy_realloc_sized_iff (h : Whole R c.heap c.live l) {p n q : Nat} (hp : p ∈ c.live)
    (ht : Tidy R c (.realloc p n)) (hret : realloc R c.heap p n = some (s', q)) (hq : q ≠ 0) :
    n ≤ blockSize s'.mem q ↔ n ≤ 2 ^ 64 - 8 := by
  obtain ⟨u, b, v, rfl, hused, rfl⟩ := h.thread.block hp
  by_cases hn : n = 0
  · rw [realloc, if_neg (by omega), if_pos hn] at hret
    cases hret
    exact absurd rfl hq
  · obtain ⟨t, q', l', hret', hwhole, hresized⟩ := resize_whole h hused hn (ht.resize h hn)
    rw [hret', Option.some.injEq, Prod.mk.injEq] at hret
    obtain ⟨rfl, rfl⟩ := hret
    exact hresized.sized_iff hwhole.thread.chain hused hq

end Kernel

/-! ## All four calls -/

/-- A pointer that `user_malloc`, `user_realloc`, `malloc` or `realloc` returns in a reachable
state has room for the `n` bytes requested exactly when `n` is at most 2^64 - 8. For the kernel's
`realloc` of a live pointer, neither an earlier call nor this one got memory from `heap_expand`, or
all of them were tidy. -/
theorem allocation_sized_iff (R : Region) (m : Mem) {n : Nat} (hn : n < 2 ^ 64) :
    (∀ os c, Run (user R).step (user R).Permitted (userStart R m) os c →
      (∀ s' q, userMalloc R c.heap n = some (s', q) → q ≠ 0 →
        (n ≤ blockSize s'.mem q ↔ n ≤ 2 ^ 64 - 8)) ∧
      ∀ p, p = 0 ∨ p ∈ c.live → ∀ s' q, userRealloc R c.heap p n = some (s', q) → q ≠ 0 →
        (n ≤ blockSize s'.mem q ↔ n ≤ 2 ^ 64 - 8)) ∧
    (∀ os c, Run (Kernel.kernel R).step (Kernel.kernel R).Permitted (Kernel.kernelStart R m) os c →
      (∀ s' q, Kernel.malloc R c.heap n = some (s', q) → q ≠ 0 →
        (n ≤ blockSize s'.mem q ↔ n ≤ 2 ^ 64 - 8)) ∧
      ∀ s' q, Kernel.realloc R c.heap 0 n = some (s', q) → q ≠ 0 →
        (n ≤ blockSize s'.mem q ↔ n ≤ 2 ^ 64 - 8)) ∧
    (∀ os c, Run (Kernel.kernel R).step
        (fun c o => (Kernel.kernel R).Permitted c o ∧ Kernel.NoExpand R c o)
        (Kernel.kernelStart R m) os c →
      ∀ p ∈ c.live, Kernel.NoExpand R c (.realloc p n) →
      ∀ s' q, Kernel.realloc R c.heap p n = some (s', q) → q ≠ 0 →
        (n ≤ blockSize s'.mem q ↔ n ≤ 2 ^ 64 - 8)) ∧
    ∀ os c, R.hi ≤ 2 ^ 63 → Run (Kernel.kernel R).step
        (fun c o => (Kernel.kernel R).Permitted c o ∧ Kernel.Tidy R c o)
        (Kernel.kernelStart R m) os c →
      ∀ p ∈ c.live, Kernel.Tidy R c (.realloc p n) →
      ∀ s' q, Kernel.realloc R c.heap p n = some (s', q) → q ≠ 0 →
        (n ≤ blockSize s'.mem q ↔ n ≤ 2 ^ 64 - 8) := by
  refine ⟨fun os c hr => ?_, fun os c hr => ?_, fun os c hr p hp hno s' q hret hq => ?_,
    fun os c hR hr p hp ht s' q hret hq => ?_⟩
  · obtain ⟨l, hl⟩ := user_run hr
    exact ⟨fun s' q hret hq => userMalloc_sized_iff hl hret hq,
      fun p hp s' q hret hq => userRealloc_sized_iff hl hp hret hq⟩
  · have hhead := Kernel.kernel_head hr
    exact ⟨fun s' q hret hq => Kernel.malloc_sized_iff hhead hn hret hq,
      fun s' q hret hq => Kernel.malloc_sized_iff hhead hn hret hq⟩
  · obtain ⟨l, hl⟩ := Kernel.kernel_run hr
    exact Kernel.realloc_sized_iff hl hp hno hret hq
  · obtain ⟨l, hl⟩ := Kernel.tidy_run hR hr
    exact Kernel.tidy_realloc_sized_iff hl hp ht hret hq

/-- In a used heap, the user's block grows from 64 bytes to 500; in a full one, so does the
kernel's first block, with memory from `heap_expand`. -/
theorem allocation_sized_used :
    (∃ c s' q, Run (user region128).step (user region128).Permitted
        (userStart region128 fun _ => 0) userDemo c ∧
      userRealloc region128 c.heap 0x200028 500 = some (s', q) ∧ q ≠ 0 ∧
      500 ≤ blockSize s'.mem q) ∧
    ∃ c s' q, Run (Kernel.kernel region128).step
        (fun c o => (Kernel.kernel region128).Permitted c o ∧ Kernel.Tidy region128 c o)
        (Kernel.kernelStart region128 fun _ => 0) Kernel.fullHeap c ∧
      ¬ Kernel.NoExpand region128 c (.realloc 0x200028 500) ∧
      Kernel.realloc region128 c.heap 0x200028 500 = some (s', q) ∧ q ≠ 0 ∧
      500 ≤ blockSize s'.mem q := by
  obtain ⟨huser, -, -, hkernel⟩ :=
    allocation_sized_iff region128 (fun _ => 0) (n := 500) (by decide)
  constructor
  · have hexec : (exec (user region128).step (user region128).Permitted
        (userStart region128 fun _ => 0) userDemo).map (fun c => (decide (0x200028 ∈ c.live),
          ((userRealloc region128 c.heap 0x200028 500).map Prod.snd))) =
        some (true, some 0x200120) := by
      decide +kernel
    obtain ⟨c, hc, heq⟩ := Option.map_eq_some_iff.mp hexec
    obtain ⟨hlive, hret⟩ := Prod.mk.inj heq
    obtain ⟨⟨s', q⟩, hret, rfl⟩ := Option.map_eq_some_iff.mp hret
    exact ⟨c, s', _, Run.of_exec hc, hret, by decide,
      ((huser _ c (Run.of_exec hc)).2 0x200028 (.inr (of_decide_eq_true hlive)) s' _ hret
        (by decide)).mpr (by decide)⟩
  · have hexec : (exec (Kernel.kernel region128).step
        (fun c o => (Kernel.kernel region128).Permitted c o ∧ Kernel.Tidy region128 c o)
        (Kernel.kernelStart region128 fun _ => 0) Kernel.fullHeap).map (fun c =>
          (decide (0x200028 ∈ c.live), decide (Kernel.NoExpand region128 c (.realloc 0x200028 500)),
            decide (Kernel.Tidy region128 c (.realloc 0x200028 500)),
            ((Kernel.realloc region128 c.heap 0x200028 500).map Prod.snd))) =
        some (true, false, true, some 0x81ffe08) := by
      decide +kernel
    obtain ⟨c, hc, heq⟩ := Option.map_eq_some_iff.mp hexec
    simp only [Prod.mk.injEq, decide_eq_true_iff, decide_eq_false_iff_not] at heq
    obtain ⟨hlive, hno, htidy, hret⟩ := heq
    obtain ⟨⟨s', q⟩, hret, rfl⟩ := Option.map_eq_some_iff.mp hret
    exact ⟨c, s', _, Run.of_exec hc, hno, hret, by decide,
      (hkernel _ c (by decide) (Run.of_exec hc) 0x200028 hlive htidy s' _ hret (by decide)).mpr
        (by decide)⟩

/-- A request for 2^64 - 1 bytes on a fresh heap returns a block of 0 bytes, from either
allocator. -/
theorem malloc_undersized :
    (userMalloc region128 (userStart region128 fun _ => 0).heap (2 ^ 64 - 1)).map
        (fun r => (r.2, blockSize r.1.mem r.2)) = some (0x200028, 0) ∧
      (Kernel.malloc region128 (Kernel.kernelStart region128 fun _ => 0).heap (2 ^ 64 - 1)).map
        (fun r => (r.2, blockSize r.1.mem r.2)) = some (0x200028, 0) := by
  decide +kernel

end KernelC.Malloc
