import KernelC.Malloc.Canonical
import KernelC.Malloc.Kernel

/-!
# What a reallocation does to data

`user_realloc` and `realloc` write headers inside free memory and inside the
block they are about. The bytes that a client keeps are neither: the first bytes
of the block, as many as the old and the new size have in common, and all bytes
of the other live payloads.

Results:
1. `userRealloc_preserves`: for the user heap, in every reachable state.
2. `realloc_in_place`: for the kernel heap, with any free blocks in a row: when
   the block keeps its place, and which blocks it takes over (`runEnd_spec`).
-/

namespace KernelC.Malloc

open Block

variable {magic : Nat} {R : Region} {s s' : Heap} {live : Finset Nat} {u v l l' : List Block}
  {b : Block} {new q : Nat}

/-- The same bytes at two places. -/
theorem load_eq_load {m m' : Mem} {a c n : Nat} (h : ∀ i < n, m' (a + i) = m (c + i)) :
    load m' a n = load m c n :=
  List.map_congr_left fun i hi => h i (List.mem_range.mp hi)

/-- The payload of a live pointer, with its size, is the same in two heaps. -/
def SamePayload (m m' : Mem) (p : Nat) : Prop :=
  blockSize m' p = blockSize m p ∧ load m' p (blockSize m p) = load m p (blockSize m p)

namespace ReallocTo

/-- The payload of every other live pointer stays. -/
theorem samePayload (hr : ReallocTo magic s u b v new s' q l')
    (h : Holds magic R s live (u ++ b :: v)) (hused : b.free = false) {n p : Nat} (hn : n ≠ 0)
    (hp : p ∈ live) (hne : p ≠ b.addr + 40) : SamePayload s.mem s'.mem p := by
  have h' := hr.holds h hused hn
  obtain ⟨u₁, c, v₁, heq, hcused, rfl⟩ := h.block hp
  have hc : c ∈ u ++ b :: v := by rw [heq]; simp
  obtain ⟨hc', hbytes⟩ := hr.kept h hused hc hcused (by rintro rfl; exact hne rfl)
  have hsize : blockSize s.mem (c.addr + 40) = c.size := by
    rw [heq] at h
    exact h.blockSize_eq
  obtain ⟨u₂, v₂, rfl⟩ := List.append_of_mem hc'
  refine ⟨by rw [h'.blockSize_eq, hsize], ?_⟩
  rw [hsize]
  exact load_congr hbytes

/-- The data of the block, as far as both sizes go. -/
theorem sameData (hr : ReallocTo magic s u b v new s' q l')
    (h : Holds magic R s live (u ++ b :: v)) (hused : b.free = false) (hq : q ≠ 0) {n : Nat}
    (hn : n ≤ new) :
    load s'.mem q (min b.size n) = load s.mem (b.addr + 40) (min b.size n) :=
  load_eq_load fun _ hi => hr.copied h hused hq (by omega) (by omega)

/-- A reallocation that fails changes nothing. -/
theorem failed (hr : ReallocTo magic s u b v new s' q l') (hq : q = 0) : s' = s := by
  cases hr with
  | shrink _ => omega
  | grow _ _ _ _ _ => omega
  | fail _ _ => rfl
  | move _ _ _ _ => omega

end ReallocTo

/-! ## The user heap -/

/-- In every reachable state, reallocating a live block keeps its data and all other payloads, and
a reallocation that fails changes nothing. -/
theorem userRealloc_preserves (R : Region) (m : Mem) {os : List Op} {c : Client Heap}
    (hr : Run (user R).step (user R).Permitted (userStart R m) os c) {p n : Nat} (hp : p ∈ c.live)
    (hn : 0 < n) (hn' : n ≤ 2 ^ 64 - 8) :
    ∃ s' q, userRealloc R c.heap p n = some (s', q) ∧
      (q ≠ 0 →
        load s'.mem q (min (blockSize c.heap.mem p) n) =
          load c.heap.mem p (min (blockSize c.heap.mem p) n) ∧
        ∀ r ∈ c.live, r ≠ p → SamePayload c.heap.mem s'.mem r) ∧
      (q = 0 →
        blockList s' = blockList c.heap ∧ p ∈ liveAfterRealloc c.live p n q ∧
        ∀ r ∈ c.live, SamePayload c.heap.mem s'.mem r) := by
  obtain ⟨l, hl⟩ := user_run hr
  obtain ⟨u, b, v, rfl, hused, rfl⟩ := hl.block hp
  obtain ⟨s', q, l', hret, hto⟩ := userRealloc_to hl hused (n := n) (by omega)
  refine ⟨s', q, hret, fun hq => ⟨?_, fun r hr hne => ?_⟩, fun hq => ?_⟩
  · rw [hl.blockSize_eq]
    exact hto.sameData hl hused hq (le_alignUp hn')
  · exact hto.samePayload hl hused (n := n) (by omega) hr hne
  · rw [hto.failed hq, hq, liveAfterRealloc_failed (by omega)]
    exact ⟨rfl, hp, fun r _ => ⟨rfl, rfl⟩⟩

/-- A block with data, and another one behind it. -/
def moveDemo : List Op :=
  [.malloc 24, .malloc 8, .write 0x200028 4 [1, 2, 3]]

theorem userRealloc_preserves_demo :
    ∃ c s', Run (user region128).step (user region128).Permitted
        (userStart region128 fun _ => 0) moveDemo c ∧
      userRealloc region128 c.heap 0x200028 100 = some (s', 0x200098) ∧
      load s'.mem 0x200098 24 = load c.heap.mem 0x200028 24 ∧
      SamePayload c.heap.mem s'.mem 0x200068 := by
  have hexec : (exec (user region128).step (user region128).Permitted
      (userStart region128 fun _ => 0) moveDemo).map
        (fun c => (c.live, blockSize c.heap.mem 0x200028,
          (userRealloc region128 c.heap 0x200028 100).map Prod.snd)) =
      some ({0x200028, 0x200068}, 24, some 0x200098) := by
    decide +kernel
  obtain ⟨c, hc, heq⟩ := Option.map_eq_some_iff.mp hexec
  simp only [Prod.mk.injEq] at heq
  obtain ⟨hlive, hsize, hret⟩ := heq
  obtain ⟨s', q, hret', hmoved, -⟩ := userRealloc_preserves region128 (fun _ => 0) (Run.of_exec hc)
    (p := 0x200028) (n := 100) (by simp [hlive]) (by decide) (by decide)
  rw [hret', Option.map_some, Option.some.injEq] at hret
  dsimp only at hret
  subst hret
  obtain ⟨hdata, hother⟩ := hmoved (by decide)
  rw [hsize] at hdata
  exact ⟨c, s', Run.of_exec hc, hret', hdata, hother 0x200068 (by simp [hlive]) (by decide)⟩

/-! ## The kernel heap -/

namespace Kernel

theorem le_runEnd_iff (new sum : Nat) (r : List Block) :
    new ≤ (runEnd new sum r).1 ↔ new ≤ sum + extent 40 (freeRun r) := by
  obtain ⟨w, -, hpre, hsum, -, henough⟩ := runEnd_spec new sum r
  have hle : extent 40 w ≤ extent 40 (freeRun r) := by
    obtain ⟨k, hk⟩ := hpre
    rw [← hk, extent_append]
    omega
  rw [hsum]
  constructor
  · intro h
    omega
  · intro h
    rcases henough with hw | hw
    · exact hw
    · rwa [hw]

/-- The kernel's `realloc` on any tiled heap: the block keeps its place exactly when the run of
free blocks behind it is enough, takes over the shortest part of the run that is, and gives back
what is too much of it; the data of the block and all other payloads stay. -/
theorem realloc_in_place {R : Region} {c : Client KHeap} {l : List Block}
    (h : Holds kernelMagic R c.heap.toHeap c.live l) {p n : Nat} (hp : p ∈ c.live) (hn : 0 < n)
    (hn' : n ≤ 2 ^ 64 - 8) (hno : NoExpand R c (.realloc p n)) :
    ∃ u b v s' q l', l = u ++ b :: v ∧ p = b.addr + 40 ∧ b.free = false ∧
      realloc R c.heap p n = some (s', q) ∧
      Holds kernelMagic R s'.toHeap (liveAfterRealloc c.live p n q) l' ∧
      (q = p ↔ alignUp n ≤ b.size + extent 40 (freeRun v)) ∧
      (q = p → ∃ w r, v = w ++ r ∧ w <+: freeRun v ∧ alignUp n ≤ b.size + extent 40 w ∧
        (∀ t, t <+: w → t ≠ w → b.size + extent 40 t < alignUp n) ∧
        l' = u ++ (cut { b with size := b.size + extent 40 w } (alignUp n) ++ r)) ∧
      (q ≠ 0 → load s'.mem q (min b.size n) = load c.heap.mem p (min b.size n)) ∧
      (q = 0 → s'.toHeap = c.heap.toHeap) ∧
      ∀ r ∈ c.live, r ≠ p → SamePayload c.heap.mem s'.mem r := by
  obtain ⟨u, b, v, rfl, hused, rfl⟩ := h.block hp
  obtain ⟨s', q, l', hret, -, hto, hstay, hlist⟩ := realloc_to h hused (n := n) (by omega) hno
  have hn0 : n ≠ 0 := by omega
  refine ⟨u, b, v, s', q, l', rfl, rfl, hused, hret, hto.holds h hused hn0, ?_, fun hq => ?_,
    fun hq => hto.sameData h hused hq (le_alignUp hn'), fun hq => hto.failed hq,
    fun r hr hne => hto.samePayload h hused hn0 hr hne⟩
  · rw [hstay, le_runEnd_iff]
  · obtain ⟨w, hsplit, hpre, hsum, hshort, -⟩ := runEnd_spec (alignUp n) b.size v
    have hroom := hstay.mp hq
    rw [hsum] at hroom
    refine ⟨w, _, hsplit, hpre, hroom, hshort, ?_⟩
    rw [hlist hq, hsum]

/-- Four blocks. The second is cut in front of the third, which is free, and freed: two free
blocks in a row. -/
def twoFree : List Op :=
  [.malloc 24, .malloc 104, .malloc 8, .malloc 8, .free 0x2000f8, .realloc 0x200068 56,
    .free 0x200068]

theorem realloc_in_place_twoFree :
    ∃ c s', Run (kernel region128).step
        (fun c o => (kernel region128).Permitted c o ∧ NoExpand region128 c o)
        (kernelStart region128 fun _ => 0) twoFree c ∧
      realloc region128 c.heap 0x200028 200 = some (s', 0x200028) ∧
      load s'.mem 0x200028 24 = load c.heap.mem 0x200028 24 := by
  have hexec : (exec (kernel region128).step
      (fun c o => (kernel region128).Permitted c o ∧ NoExpand region128 c o)
      (kernelStart region128 fun _ => 0) twoFree).map (fun c => (c.live,
        blockSize c.heap.mem 0x200028, decide (NoExpand region128 c (.realloc 0x200028 200)),
        (realloc region128 c.heap 0x200028 200).map Prod.snd)) =
      some ({0x200028, 0x200128}, 24, true, some 0x200028) := by
    decide +kernel
  obtain ⟨c, hc, heq⟩ := Option.map_eq_some_iff.mp hexec
  simp only [Prod.mk.injEq, decide_eq_true_eq] at heq
  obtain ⟨hlive, hsize, hno, hpos⟩ := heq
  obtain ⟨l, hl⟩ := kernel_run (Run.of_exec hc)
  obtain ⟨u, b, v, s', q, l', rfl, haddr, -, hret, -, -, -, hdata, -, -⟩ :=
    realloc_in_place hl (p := 0x200028) (n := 200) (by simp [hlive]) (by decide) (by decide) hno
  rw [hret, Option.map_some, Option.some.injEq] at hpos
  dsimp only at hpos
  subst hpos
  have hb : b.size = 24 := by rw [← hl.blockSize_eq, ← haddr, hsize]
  have hbytes := hdata (by decide)
  rw [hb] at hbytes
  exact ⟨c, s', Run.of_exec hc, hret, hbytes⟩

end Kernel

end KernelC.Malloc
