import KernelC.Malloc.Data
import KernelC.Malloc.Tail

/-!
# Reallocation and fragments

`coalesce` runs in `free` only. Of the ways to reallocate a block, one makes a
free block beside another free one: a block that is cut in front of a free block
leaves the rest of it there. All others keep a coalesced list coalesced, and a
coalesced list wastes nothing: a request is refused only if it is larger than
every run of free blocks.

Results: `Resized.coalesced_iff` for one block, `realloc_coalesced_iff` for
the calls of both allocators; `shrink_leaves_fragments`.
-/

namespace KernelC.Malloc

open Block

variable {magic : Nat} {R : Region} {s s' : Heap} {live : Finset Nat} {u v l l' : List Block}
  {b : Block} {new q : Nat}

/-! ## One block -/

theorem coalesced_split_rest (h : Coalesced (u ++ b :: v)) (hused : b.free = false)
    (a sz : Nat) (f : Block) (hf : f.free = true) :
    Coalesced (u ++ ⟨a, sz, false⟩ :: f :: v) ↔ ¬ ∃ c t, v = c :: t ∧ c.free = true := by
  obtain ⟨hu, hv⟩ := (coalesced_used hused).mp h
  rw [coalesced_used rfl, and_iff_right hu]
  cases v with
  | nil => simp [Coalesced]
  | cons c t =>
    have hchain : Coalesced (f :: c :: t) ↔
        ¬ (f.free = true ∧ c.free = true) ∧ Coalesced (c :: t) :=
      List.isChain_cons_cons
    rw [hchain, and_iff_left hv]
    simp [hf]

/-- A reallocation keeps the list coalesced unless it cuts a block in front of a free one. -/
theorem Resized.coalesced_iff (hr : Resized u b v new q l') (hused : b.free = false)
    (hc : Coalesced (u ++ b :: v)) :
    Coalesced l' ↔ ¬ (new + 48 ≤ b.size ∧ ∃ c t, v = c :: t ∧ c.free = true) := by
  obtain ⟨hu, hv⟩ := (coalesced_used hused).mp hc
  cases hr with
  | shrink hsize =>
    unfold cut
    split
    · next hroom => exact iff_of_true hc fun hcut => by omega
    · next hroom =>
      have hrest := coalesced_split_rest hc hused b.addr new
        ⟨b.addr + 40 + new, b.size - new - 40, true⟩ rfl
      rw [← hused] at hrest
      simp only [List.cons_append, List.nil_append, hrest, not_and]
      constructor
      · exact fun hno _ => hno
      · exact fun hno => hno (by omega)
  | @grow w r sz hbig hv' hfree hsz hroom =>
    refine iff_of_true ?_ fun hcut => by omega
    subst hv'
    -- the block that joined was free, so what is behind it is not
    have hw : w ≠ [] := by
      rintro rfl
      rw [extent_nil] at hsz
      omega
    obtain ⟨d, rfl⟩ := Coalesced.free_run (l := []) hv hfree hw
    have hd : d.free = true := hfree d (by simp)
    unfold cut
    split
    · exact (coalesced_used (b := { b with size := sz }) hused).mpr ⟨hu, hv.tail⟩
    · refine (coalesced_used (b := { b with size := new }) hused).mpr ⟨hu, ?_⟩
      exact hv.congr (by simp [hd])
  | fail hbig => exact iff_of_true hc fun hcut => by omega
  | move hbig hlist hfit hne htaken =>
    refine iff_of_true ?_ fun hcut => by omega
    rw [hlist] at hc
    have htake := coalesced_cut hc hfit.1 new
    rw [htaken] at htake
    exact coalesced_release htake hused
  | @fresh u₂ v₂ a hbig hne htaken =>
    refine iff_of_true ?_ fun hcut => by omega
    have htake : Coalesced (u ++ b :: v ++ [⟨a, new, false⟩]) :=
      (coalesced_used rfl).mpr ⟨hc, List.isChain_nil⟩
    rw [htaken] at htake
    exact coalesced_release htake hused

/-! ## Requests -/

/-- A request that is refused is larger than every run of free blocks. -/
def RunsUsable (refused : Nat → Prop) (l : List Block) : Prop :=
  ∀ n, n ≠ 0 → refused n → ∀ x w y, l = x ++ (w ++ y) → w ≠ [] → (∀ c ∈ w, c.free = true) →
    extent 40 w < alignUp n + 40

theorem runsUsable_of_coalesced (hc : Coalesced l) {refused : Nat → Prop}
    (href : ∀ n, n ≠ 0 → refused n → ∀ d ∈ l, ¬ Fits (alignUp n) d) : RunsUsable refused l := by
  rintro n hn hno x w y rfl hne hfree
  obtain ⟨d, rfl⟩ := hc.free_run hfree hne
  have hfit := href n hn hno d (by simp)
  have hd : d.free = true := hfree d (by simp)
  unfold Fits at hfit
  rw [extent_cons, extent_nil]
  have hsize : ¬ alignUp n ≤ d.size := fun hle => hfit ⟨hd, hle⟩
  omega

/-- `user_malloc` refuses a request only if no block fits. -/
theorem userMalloc_refused (h : Holds userMagic R s live l) {n : Nat} (hn : n ≠ 0)
    (hret : ∃ t, userMalloc R s n = some (t, 0)) : ∀ d ∈ l, ¬ Fits (alignUp n) d := by
  obtain ⟨t, ht⟩ := hret
  rcases userMalloc_found h n with ⟨-, hzero | hnone⟩ | ⟨u, d, v, rfl, -, -, hsome⟩
  · exact absurd hzero hn
  · exact hnone
  · rw [hsome] at ht
    cases ht

/-- So does `malloc`. -/
theorem Kernel.malloc_refused {e : Nat} {s : Kernel.KHeap} (h : Chain Kernel.kernelMagic R e s.mem l)
    (hhead : s.head = first l 0) {n : Nat} (hn : n ≠ 0)
    (hret : ∃ t, Kernel.malloc R s n = some (t, 0)) : ∀ d ∈ l, ¬ Fits (alignUp n) d := by
  obtain ⟨t, ht⟩ := hret
  rcases h.findFit_cases hhead (alignUp n) with ⟨-, hnone⟩ | ⟨u, d, v, rfl, hfit, -, hsome⟩
  · exact hnone
  · -- the loop would end at once, with the block that fits
    have hd := h.bounds (b := d) (by simp)
    rw [Kernel.malloc_of_fit hn hsome (h.addr_ne_zero d (by simp)) (by omega), Option.some.injEq,
      Prod.mk.injEq] at ht
    omega

/-! ## Both allocators -/

/-- The call cuts a block, and the next one is free. -/
def SplitsBeforeFree (m : Mem) (p n : Nat) : Prop :=
  n ≠ 0 ∧ alignUp n + 48 ≤ blockSize m p ∧ get m (payloadToHeader p) .next ≠ 0 ∧
    get m (get m (payloadToHeader p) .next) .free ≠ 0

theorem splitsBeforeFree_iff {e : Nat} {m : Mem} (h : Chain magic R e m (u ++ b :: v)) {n : Nat}
    (hn : n ≠ 0) :
    SplitsBeforeFree m (b.addr + 40) n ↔
      alignUp n + 48 ≤ b.size ∧ ∃ c t, v = c :: t ∧ c.free = true := by
  unfold SplitsBeforeFree
  rw [h.blockSize_eq, h.payloadToHeader_eq, h.stored.next, and_iff_right hn]
  refine and_congr_right fun _ => ?_
  cases v with
  | nil => simp
  | cons c t =>
    have h' : Chain magic R e m ((u ++ [b]) ++ c :: t) := by simpa using h
    rw [first_cons, h'.stored.free_ne_zero, and_iff_right (h'.addr_ne_zero c (by simp))]
    constructor
    · exact fun hc => ⟨c, t, rfl, hc⟩
    · rintro ⟨d, t', heq, hd⟩
      obtain ⟨rfl, -⟩ := List.cons.inj heq
      exact hd

/-- The list after a call that frees the block or reallocates it. -/
theorem coalesced_after {e : Nat} (hl' : Chain magic R e s'.mem l') (hhead : s'.head = first l' 0)
    {refused : Nat → Prop} (href : ∀ n, n ≠ 0 → refused n → ∀ d ∈ l', ¬ Fits (alignUp n) d)
    {P : Prop} (hiff : Coalesced l' ↔ P) :
    ∃ k, blockList s' = some k ∧ (Coalesced k ∧ RunsUsable refused k ↔ P) := by
  refine ⟨l', hl'.blockList_eq hhead, ?_⟩
  rw [← hiff]
  exact ⟨fun h => h.1, fun h => ⟨h, runsUsable_of_coalesced h href⟩⟩

theorem Holds.first_eq (h : Holds magic R s live l) : s.head = first l 0 :=
  h.head.trans h.layout.head_eq.symm

theorem userRealloc_coalesced_iff (h : Holds userMagic R s live l) (hc : Coalesced l) {p : Nat}
    (hp : p ∈ live) (n : Nat) :
    ∃ s' q l', userRealloc R s p n = some (s', q) ∧ blockList s' = some l' ∧
      (Coalesced l' ∧ RunsUsable (fun k => ∃ t, userMalloc R s' k = some (t, 0)) l' ↔
        ¬ SplitsBeforeFree s.mem p n) := by
  obtain ⟨u, b, v, rfl, hused, rfl⟩ := h.block hp
  by_cases hn : n = 0
  · subst hn
    have hfree := h.free hused
    obtain ⟨k, hk, hiff⟩ := coalesced_after hfree.layout.chain hfree.first_eq
      (fun _ hn => userMalloc_refused hfree hn) (P := ¬ SplitsBeforeFree s.mem (b.addr + 40) 0)
      (iff_of_true (coalesced_release hc hused) fun hcut => hcut.1 rfl)
    refine ⟨userFree s (b.addr + 40), 0, k, ?_, hk, hiff⟩
    rw [userRealloc, if_neg (by omega), if_pos rfl]
  · obtain ⟨s', q, l', hret, hto⟩ := userRealloc_to h hused hn
    have hl' := hto.holds h hused hn
    obtain ⟨k, hk, hiff⟩ := coalesced_after hl'.layout.chain hl'.first_eq
      (fun _ hn => userMalloc_refused hl' hn)
      (((hto.resized h hused).coalesced_iff hused hc).trans
        (not_congr (splitsBeforeFree_iff h.layout.chain hn).symm))
    exact ⟨s', q, k, hret, hk, hiff⟩

namespace Kernel

variable {c : Client KHeap} {p n : Nat}

/-- A call that frees the block. -/
theorem realloc_zero_coalesced {e : Nat} (hc : Coalesced (u ++ b :: v)) (hused : b.free = false)
    (hl' : Chain kernelMagic R e (free c.heap (b.addr + 40)).mem (release u b v))
    (hhead : (free c.heap (b.addr + 40)).head = first (release u b v) 0) :
    ∃ s' q l', realloc R c.heap (b.addr + 40) 0 = some (s', q) ∧ blockList s'.toHeap = some l' ∧
      (Coalesced l' ∧ RunsUsable (fun k => ∃ t, malloc R s' k = some (t, 0)) l' ↔
        ¬ SplitsBeforeFree c.heap.mem (b.addr + 40) 0) := by
  obtain ⟨k, hk, hiff⟩ := coalesced_after hl' hhead (fun _ hn => malloc_refused hl' hhead hn)
    (P := ¬ SplitsBeforeFree c.heap.mem (b.addr + 40) 0)
    (iff_of_true (coalesced_release hc hused) fun hcut => hcut.1 rfl)
  refine ⟨free c.heap (b.addr + 40), 0, k, ?_, hk, hiff⟩
  rw [realloc, if_neg (by omega), if_pos rfl]

theorem realloc_coalesced (h : Holds kernelMagic R c.heap.toHeap c.live l) (hc : Coalesced l)
    (hp : p ∈ c.live) (hno : NoExpand R c (.realloc p n)) :
    ∃ s' q l', realloc R c.heap p n = some (s', q) ∧ blockList s'.toHeap = some l' ∧
      (Coalesced l' ∧ RunsUsable (fun k => ∃ t, malloc R s' k = some (t, 0)) l' ↔
        ¬ SplitsBeforeFree c.heap.mem p n) := by
  obtain ⟨u, b, v, rfl, hused, rfl⟩ := h.block hp
  by_cases hn : n = 0
  · subst hn
    have hfree := h.free hused
    rw [← free_toHeap] at hfree
    exact realloc_zero_coalesced hc hused hfree.layout.chain hfree.first_eq
  · obtain ⟨s', q, l', hret, -, hto, -⟩ := realloc_to h hused hn hno
    have hl' := hto.holds h hused hn
    obtain ⟨k, hk, hiff⟩ := coalesced_after hl'.layout.chain hl'.first_eq
      (fun _ hn => malloc_refused hl'.layout.chain hl'.first_eq hn)
      (((hto.resized h hused).coalesced_iff hused hc).trans
        (not_congr (splitsBeforeFree_iff h.layout.chain hn).symm))
    exact ⟨s', q, k, hret, hk, hiff⟩

/-- The same where `realloc` may get memory from `heap_expand`. -/
theorem tidy_realloc_coalesced (h : Whole R c.heap c.live l) (hc : Coalesced l) (hp : p ∈ c.live)
    (ht : Tidy R c (.realloc p n)) :
    ∃ s' q l', realloc R c.heap p n = some (s', q) ∧ blockList s'.toHeap = some l' ∧
      (Coalesced l' ∧ RunsUsable (fun k => ∃ t, malloc R s' k = some (t, 0)) l' ↔
        ¬ SplitsBeforeFree c.heap.mem p n) := by
  obtain ⟨u, b, v, rfl, hused, rfl⟩ := h.thread.block hp
  by_cases hn : n = 0
  · subst hn
    have hfree := (h.free hused).thread
    exact realloc_zero_coalesced hc hused hfree.chain hfree.head
  · obtain ⟨s', q, l', hret, hwhole, hresized⟩ := resize_whole h hused hn (ht.resize h hn)
    have hl' := hwhole.thread
    obtain ⟨k, hk, hiff⟩ := coalesced_after hl'.chain hl'.head
      (fun _ hn => malloc_refused hl'.chain hl'.head hn)
      ((hresized.coalesced_iff hused hc).trans
        (not_congr (splitsBeforeFree_iff h.thread.chain hn).symm))
    exact ⟨s', q, k, hret, hk, hiff⟩

end Kernel

/-- After `realloc` and `user_realloc` of a coalesced heap, no two neighbours are both free, and a
refused request is larger than every run of free blocks, exactly when the call did not cut a block
in front of a free one. The kernel's call is one that gets no memory from `heap_expand`, or one that
may get some and puts no header and copies no byte over a header of the list; this heap may have
been expanded before. -/
theorem realloc_coalesced_iff (R : Region) :
    (∀ (s : Heap) (live : Finset Nat) (l : List Block), Holds userMagic R s live l →
      Coalesced l → ∀ p ∈ live, ∀ n,
      ∃ s' q l', userRealloc R s p n = some (s', q) ∧ blockList s' = some l' ∧
        (Coalesced l' ∧ RunsUsable (fun k => ∃ t, userMalloc R s' k = some (t, 0)) l' ↔
          ¬ SplitsBeforeFree s.mem p n)) ∧
    (∀ (c : Client Kernel.KHeap) (l : List Block),
      Holds Kernel.kernelMagic R c.heap.toHeap c.live l → Coalesced l →
      ∀ p ∈ c.live, ∀ n, Kernel.NoExpand R c (.realloc p n) →
      ∃ s' q l', Kernel.realloc R c.heap p n = some (s', q) ∧ blockList s'.toHeap = some l' ∧
        (Coalesced l' ∧ RunsUsable (fun k => ∃ t, Kernel.malloc R s' k = some (t, 0)) l' ↔
          ¬ SplitsBeforeFree c.heap.mem p n)) ∧
    ∀ (c : Client Kernel.KHeap) (l : List Block), Kernel.Whole R c.heap c.live l → Coalesced l →
      ∀ p ∈ c.live, ∀ n, Kernel.Tidy R c (.realloc p n) →
      ∃ s' q l', Kernel.realloc R c.heap p n = some (s', q) ∧ blockList s'.toHeap = some l' ∧
        (Coalesced l' ∧ RunsUsable (fun k => ∃ t, Kernel.malloc R s' k = some (t, 0)) l' ↔
          ¬ SplitsBeforeFree c.heap.mem p n) :=
  ⟨fun _ _ _ h hc _ hp n => userRealloc_coalesced_iff h hc hp n,
    fun _ _ h hc _ hp _ hno => Kernel.realloc_coalesced h hc hp hno,
    fun _ _ h hc _ hp _ ht => Kernel.tidy_realloc_coalesced h hc hp ht⟩

instance (m : Mem) (p n : Nat) : Decidable (SplitsBeforeFree m p n) :=
  inferInstanceAs (Decidable (_ ∧ _))

/-- A block cut in front of a used one; and in a full kernel heap a block that moves into memory
from `heap_expand`. -/
theorem realloc_coalesced_used_next :
    (∃ c s' q l', Run (user region128).step (MallocFree region128) (userStart region128 fun _ => 0)
        [.malloc 100, .malloc 8] c ∧
      userRealloc region128 c.heap 0x200028 8 = some (s', q) ∧ blockList s' = some l' ∧
      Coalesced l') ∧
    ∃ c s' q l', Run (Kernel.kernel region128).step
        (fun c o => (Kernel.kernel region128).Permitted c o ∧ Kernel.Tidy region128 c o)
        (Kernel.kernelStart region128 fun _ => 0) Kernel.fullHeap c ∧
      ¬ Kernel.NoExpand region128 c (.realloc 0x200028 16) ∧
      Kernel.realloc region128 c.heap 0x200028 16 = some (s', q) ∧
      blockList s'.toHeap = some l' ∧ Coalesced l' := by
  obtain ⟨huser, -, hkernel⟩ := realloc_coalesced_iff region128
  constructor
  · have hexec : (exec (user region128).step (MallocFree region128) (userStart region128 fun _ => 0)
        [.malloc 100, .malloc 8]).map
          (fun c => (c.live, decide (SplitsBeforeFree c.heap.mem 0x200028 8))) =
        some ({0x200028, 0x2000b8}, false) := by
      decide +kernel
    obtain ⟨c, hc, heq⟩ := Option.map_eq_some_iff.mp hexec
    simp only [Prod.mk.injEq, decide_eq_false_iff_not] at heq
    obtain ⟨hlive, hcut⟩ := heq
    obtain ⟨l, hl⟩ := canonical_run (Run.of_exec hc)
    obtain ⟨s', q, l', hret, hlist, hiff⟩ :=
      huser c.heap c.live l hl.toHolds hl.coalesced 0x200028 (by simp [hlive]) 8
    exact ⟨c, s', q, l', Run.of_exec hc, hret, hlist, (hiff.mpr hcut).1⟩
  · have hexec : (exec (Kernel.kernel region128).step
        (fun c o => (Kernel.kernel region128).Permitted c o ∧ Kernel.Tidy region128 c o)
        (Kernel.kernelStart region128 fun _ => 0) Kernel.fullHeap).map (fun c =>
          (decide (0x200028 ∈ c.live), Kernel.blocks c.heap,
            decide (SplitsBeforeFree c.heap.mem 0x200028 16),
            decide (Kernel.NoExpand region128 c (.realloc 0x200028 16)),
            decide (Kernel.Tidy region128 c (.realloc 0x200028 16)))) =
        some (true, [⟨0x200000, 8, false⟩, ⟨0x200030, 0x7ffffa8, false⟩], false, false, true) := by
      decide +kernel
    obtain ⟨c, hc, heq⟩ := Option.map_eq_some_iff.mp hexec
    simp only [Prod.mk.injEq, decide_eq_true_iff, decide_eq_false_iff_not] at heq
    obtain ⟨hlive, hblocks, hcut, hno, htidy⟩ := heq
    obtain ⟨l, hl⟩ := Kernel.tidy_run (by decide) (Run.of_exec hc)
    rw [hl.blocks_eq] at hblocks
    obtain ⟨s', q, l', hret, hlist, hiff⟩ :=
      hkernel c l hl (by simp [hblocks, Coalesced]) 0x200028 hlive 16 htidy
    exact ⟨c, s', q, l', Run.of_exec hc, hno, hret, hlist, (hiff.mpr hcut).1⟩

/-- One block of 104 bytes, and the rest of the region. -/
def oneUsed : List Block := [⟨0x200000, 104, false⟩, ⟨0x200090, 0x7ffff48, true⟩]

def fragments : List Block :=
  [⟨0x200000, 8, false⟩, ⟨0x200030, 56, true⟩, ⟨0x200090, 0x7ffff48, true⟩]

/-- The block is cut to 8: the rest of it lies beside the rest of the region, and the
request that would take both is refused, by either allocator. -/
theorem shrink_leaves_fragments :
    Coalesced oneUsed ∧ ¬ Coalesced fragments ∧
    (∃ c s' q t, Run (user region128).step (MallocFree region128)
        (userStart region128 fun _ => 0) [.malloc 100] c ∧
      blockList c.heap = some oneUsed ∧
      userRealloc region128 c.heap 0x200028 8 = some (s', q) ∧
      blockList s' = some fragments ∧
      userMalloc region128 s' 0x7ffffa8 = some (t, 0)) ∧
    ∃ c s' q, Run (Kernel.kernel region128).step
        (fun c o => (Kernel.kernel region128).Permitted c o ∧ Kernel.NoExpand region128 c o)
        (Kernel.kernelStart region128 fun _ => 0) [.malloc 100] c ∧
      blockList c.heap.toHeap = some oneUsed ∧
      Kernel.realloc region128 c.heap 0x200028 8 = some (s', q) ∧
      blockList s'.toHeap = some fragments := by
  have huser : (exec (user region128).step (MallocFree region128) (userStart region128 fun _ => 0)
      [.malloc 100]).map (fun c => (blockList c.heap,
        (userRealloc region128 c.heap 0x200028 8).map fun r =>
          (blockList r.1, (userMalloc region128 r.1 0x7ffffa8).map Prod.snd))) =
      some (some oneUsed, some (some fragments, some 0)) := by
    decide +kernel
  have hkernel : (exec (Kernel.kernel region128).step
      (fun c o => (Kernel.kernel region128).Permitted c o ∧ Kernel.NoExpand region128 c o)
      (Kernel.kernelStart region128 fun _ => 0) [.malloc 100]).map (fun c =>
        (blockList c.heap.toHeap,
          (Kernel.realloc region128 c.heap 0x200028 8).map fun r => blockList r.1.toHeap)) =
      some (some oneUsed, some (some fragments)) := by
    decide +kernel
  obtain ⟨c, hc, heq⟩ := Option.map_eq_some_iff.mp huser
  simp only [Prod.mk.injEq, Option.map_eq_some_iff, Prod.exists] at heq
  obtain ⟨hlist, s', q, hret, hlist', t, q', hfull, rfl⟩ := heq
  obtain ⟨ck, hck, heqk⟩ := Option.map_eq_some_iff.mp hkernel
  simp only [Prod.mk.injEq, Option.map_eq_some_iff, Prod.exists] at heqk
  obtain ⟨hlistk, sk, qk, hretk, hlistk'⟩ := heqk
  refine ⟨by simp [Coalesced, oneUsed], by simp [Coalesced, fragments], ?_⟩
  exact ⟨⟨c, s', q, t, Run.of_exec hc, hlist, hret, hlist', hfull⟩,
    ck, sk, qk, Run.of_exec hck, hlistk, hretk, hlistk'⟩

end KernelC.Malloc
