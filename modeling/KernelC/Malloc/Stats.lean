import KernelC.Malloc.Kernel
import KernelC.Malloc.User
import Mathlib.Algebra.BigOperators.Group.Finset.Basic

/-!
# The statistics

`get_kmalloc_stats` and `get_usermalloc_stats` walk the block list. In every heap that a client
reaches they count exactly its live blocks and the rest of the region (`Reports`), and they tell
which request the allocator will serve.
-/

namespace KernelC.Malloc

open Block

/-- The statistics `st` are those of a heap in the region `R` with the live pointers `live`. -/
structure Reports (R : Region) (m : Mem) (live : Finset Nat) (st : Stats) : Prop where
  total : st.totalManaged = R.hi - R.lo
  used : st.numUsed = live.card
  usedPayload : st.usedPayload = ∑ p ∈ live, blockSize m p
  blocks : st.numBlocks = st.numUsed + st.numFree
  payload : st.usedPayload + st.freePayload + 40 * st.numBlocks = R.hi - R.lo
  largest : st.largestFree ≤ st.freePayload

/-- A request of `n` bytes is served, by the statistics. -/
def Stats.Serves (st : Stats) (n : Nat) : Prop :=
  n ≠ 0 ∧ 0 < st.numFree ∧ alignUp n ≤ st.largestFree

instance (st : Stats) (n : Nat) : Decidable (st.Serves n) :=
  inferInstanceAs (Decidable (_ ∧ _ ∧ _))

/-! ## The counts of a list -/

def usedBytes : List Block → Nat
  | [] => 0
  | b :: l => (if b.free then 0 else b.size) + usedBytes l

def freeBytes : List Block → Nat
  | [] => 0
  | b :: l => (if b.free then b.size else 0) + freeBytes l

variable {magic lo hi : Nat} {R : Region} {m : Mem} {s : Heap} {live : Finset Nat}
  {l : List Block} {b : Block} {st : Stats}

theorem bytes_eq (h : Tiles 40 lo l hi) :
    usedBytes l + freeBytes l + 40 * l.length + lo = hi := by
  induction l generalizing lo with
  | nil =>
    rw [tiles_nil] at h
    simpa [usedBytes, freeBytes] using h
  | cons b l ih =>
    have hrest := ih h.2
    have haddr := h.1
    rw [usedBytes, freeBytes, List.length_cons]
    split <;> omega

theorem size_le_freeBytes (hb : b ∈ l) (hfree : b.free = true) : b.size ≤ freeBytes l := by
  induction l with
  | nil => cases hb
  | cons c l ih =>
    rw [freeBytes]
    rcases List.mem_cons.mp hb with rfl | hb
    · rw [if_pos hfree]
      omega
    · have := ih hb
      omega

/-- What the walk adds to `st` over the blocks `l`. -/
structure Tallied (l : List Block) (st st' : Stats) : Prop where
  total : st'.totalManaged = st.totalManaged + (usedBytes l + freeBytes l + 40 * l.length)
  usedPayload : st'.usedPayload = st.usedPayload + usedBytes l
  freePayload : st'.freePayload = st.freePayload + freeBytes l
  blocks : st'.numBlocks = st.numBlocks + l.length
  numUsed : st'.numUsed = st.numUsed + (used l).length
  numFree : st'.numFree + (used l).length = st.numFree + l.length
  largest : ∀ n, n ≤ st'.largestFree ↔ n ≤ st.largestFree ∨ ∃ b ∈ l, b.free = true ∧ n ≤ b.size

/-- There is room for `n` more bytes. Each count is a part of the total. -/
structure Spare (st : Stats) (n : Nat) : Prop where
  total : st.totalManaged + n < 2 ^ 64
  usedPayload : st.usedPayload ≤ st.totalManaged
  freePayload : st.freePayload ≤ st.totalManaged
  blocks : st.numBlocks ≤ st.totalManaged
  numUsed : st.numUsed ≤ st.totalManaged
  numFree : st.numFree ≤ st.totalManaged

theorem count_tallied {n : Nat} (h : Spare st (40 + b.size + n)) :
    Tallied [b] st (st.count b.size b.free) ∧ Spare (st.count b.size b.free) n := by
  obtain ⟨htotal, hused, hfree, hblocks, hnused, hnfree⟩ := h
  have hadd : ∀ {a k : Nat}, a ≤ st.totalManaged → k ≤ 40 + b.size → wadd a k = a + k :=
    fun ha hk => wadd_eq (by omega)
  have hone : ∀ {a : Nat}, a ≤ st.totalManaged → wadd a 1 = a + 1 := fun ha => hadd ha (by omega)
  have h40 : wadd 40 b.size = 40 + b.size := wadd_eq (by omega)
  cases hb : b.free with
  | true =>
    have hsize : ∀ n, n ≤ (if b.size > st.largestFree then b.size else st.largestFree) ↔
        n ≤ st.largestFree ∨ n ≤ b.size := by
      intro n
      split <;> omega
    have hcount : st.count b.size true =
        ⟨st.totalManaged + (40 + b.size), st.usedPayload, st.freePayload + b.size,
          if b.size > st.largestFree then b.size else st.largestFree, st.numBlocks + 1,
          st.numUsed, st.numFree + 1⟩ := by
      simp [Stats.count, h40, hadd (Nat.le_refl _) (Nat.le_refl _), hadd hfree, hone hblocks,
        hone hnfree]
    rw [hcount]
    refine ⟨⟨?_, ?_, ?_, ?_, ?_, ?_, fun n => ?_⟩, ⟨?_, ?_, ?_, ?_, ?_, ?_⟩⟩
    all_goals simp [usedBytes, freeBytes, used, hb, hsize]
    all_goals omega
  | false =>
    have hcount : st.count b.size false =
        ⟨st.totalManaged + (40 + b.size), st.usedPayload + b.size, st.freePayload,
          st.largestFree, st.numBlocks + 1, st.numUsed + 1, st.numFree⟩ := by
      simp [Stats.count, h40, hadd (Nat.le_refl _) (Nat.le_refl _), hadd hused, hone hblocks,
        hone hnused]
    rw [hcount]
    refine ⟨⟨?_, ?_, ?_, ?_, ?_, ?_, fun n => ?_⟩, ⟨?_, ?_, ?_, ?_, ?_, ?_⟩⟩
    all_goals simp [usedBytes, freeBytes, used, hb]
    all_goals omega

theorem Tallied.cons {st' st₂ : Stats} (h : Tallied [b] st st') (h' : Tallied l st' st₂) :
    Tallied (b :: l) st st₂ := by
  have hb : usedBytes (b :: l) = usedBytes [b] + usedBytes l := by simp [usedBytes]
  have hf : freeBytes (b :: l) = freeBytes [b] + freeBytes l := by simp [freeBytes]
  have hu : (used (b :: l)).length = (used [b]).length + (used l).length := by
    rw [← List.singleton_append, used, List.filter_append, List.length_append]
    rfl
  refine ⟨?_, ?_, ?_, ?_, ?_, ?_, fun n => ?_⟩
  · rw [h'.total, h.total, hb, hf]
    simp only [List.length_cons, List.length_nil]
    omega
  · rw [h'.usedPayload, h.usedPayload, hb, Nat.add_assoc]
  · rw [h'.freePayload, h.freePayload, hf, Nat.add_assoc]
  · rw [h'.blocks, h.blocks]
    simp only [List.length_cons, List.length_nil]
    omega
  · rw [h'.numUsed, h.numUsed, hu, Nat.add_assoc]
  · have h1 := h.numFree
    have h2 := h'.numFree
    rw [hu]
    simp only [List.length_cons, List.length_nil] at h1 ⊢
    omega
  · rw [h'.largest, h.largest]
    simp only [List.mem_cons, List.not_mem_nil, or_false, exists_eq_left, or_assoc,
      exists_eq_or_imp]

/-- The walk adds up the whole list. -/
theorem foldl_tallied (h : Spare st (usedBytes l + freeBytes l + 40 * l.length)) :
    Tallied l st (l.foldl (fun st b => st.count b.size b.free) st) := by
  induction l generalizing st with
  | nil =>
    rw [List.foldl_nil]
    refine ⟨rfl, rfl, rfl, rfl, rfl, rfl, fun n => ?_⟩
    simp
  | cons b l ih =>
    have hbytes : usedBytes (b :: l) + freeBytes (b :: l) + 40 * (b :: l).length =
        40 + b.size + (usedBytes l + freeBytes l + 40 * l.length) := by
      rw [usedBytes, freeBytes, List.length_cons]
      split <;> omega
    rw [hbytes] at h
    obtain ⟨htally, hspare⟩ := count_tallied h
    rw [List.foldl_cons]
    exact htally.cons (ih hspare)

/-! ## The heap -/

/-- The live pointers are the payloads of the used blocks. -/
theorem sum_payloads {f : Nat → Nat} (hnodup : (payloads l).Nodup)
    (hf : ∀ b ∈ l, b.free = false → f (b.addr + 40) = b.size) :
    ∑ p ∈ (payloads l).toFinset, f p = usedBytes l ∧
      (payloads l).toFinset.card = (used l).length := by
  induction l with
  | nil => exact ⟨rfl, rfl⟩
  | cons b l ih =>
    rw [payloads_cons] at hnodup ⊢
    have hrest := fun c hc => hf c (List.mem_cons_of_mem b hc)
    cases hb : b.free with
    | true =>
      rw [hb] at hnodup
      have hused : used (b :: l) = used l := by simp [used, hb]
      rw [if_pos rfl, usedBytes, hb, if_pos rfl, Nat.zero_add, hused]
      exact ih hnodup hrest
    | false =>
      rw [hb] at hnodup
      obtain ⟨hnew, hnodup⟩ := List.nodup_cons.mp hnodup
      obtain ⟨hsum, hcard⟩ := ih hnodup hrest
      have hused : used (b :: l) = b :: used l := by simp [used, hb]
      have hmem : b.addr + 40 ∉ (payloads l).toFinset := by simpa using hnew
      rw [if_neg (by decide), List.toFinset_cons, Finset.sum_insert hmem, hsum, usedBytes, hb,
        if_neg (by decide), hused, List.length_cons, Finset.card_insert_of_notMem hmem, hcard]
      exact ⟨by rw [hf b List.mem_cons_self hb], rfl⟩

theorem Holds.reports (h : Holds magic R s live l) :
    ∃ st, stats s = some st ∧ Reports R s.mem live st ∧
      ∀ size, (∃ b ∈ l, Fits size b) ↔ 0 < st.numFree ∧ size ≤ st.largestFree := by
  have hbytes := bytes_eq h.layout.tiles
  have hhi := R.hi_lt
  have hroom := R.room
  have hnodup := payloads_nodup h.layout.chain
  have hlive : live = (payloads l).toFinset := by
    ext p
    rw [List.mem_toFinset, h.live]
  have hsize : ∀ b ∈ l, b.free = false → blockSize s.mem (b.addr + 40) = b.size := by
    intro b hb _
    obtain ⟨u, v, rfl⟩ := List.append_of_mem hb
    exact h.blockSize_eq
  obtain ⟨hsum, hcard⟩ := sum_payloads hnodup hsize
  rw [← hlive] at hsum hcard
  have hspare : Spare ⟨0, 0, 0, 0, 0, 0, 0⟩ (usedBytes l + freeBytes l + 40 * l.length) :=
    ⟨by dsimp only; omega, Nat.le_refl _, Nat.le_refl _, Nat.le_refl _, Nat.le_refl _,
      Nat.le_refl _⟩
  have htally := foldl_tallied hspare
  refine ⟨_, stats_eq h.layout h.head, ?_⟩
  generalize l.foldl _ (⟨0, 0, 0, 0, 0, 0, 0⟩ : Stats) = st at htally
  obtain ⟨htotal, hused, hfree, hblocks, hnused, hnfree, hlargest⟩ := htally
  simp only [Nat.zero_add] at htotal hused hfree hblocks hnused hnfree
  refine ⟨⟨?_, ?_, ?_, ?_, ?_, ?_⟩, fun size => ?_⟩
  · omega
  · rw [hnused, hcard]
  · rw [hused, hsum]
  · omega
  · omega
  · rw [hfree]
    rcases (hlargest st.largestFree).mp (Nat.le_refl _) with hzero | ⟨b, hb, hbfree, hle⟩
    · exact hzero.trans (Nat.zero_le _)
    · exact hle.trans (size_le_freeBytes hb hbfree)
  · have hcount : (used l).length < l.length ↔ ∃ b ∈ l, b.free = true := by
      rw [used, List.length_filter_lt_length_iff_exists]
      simp
    have hlt : 0 < st.numFree ↔ (used l).length < l.length := by omega
    rw [hlt, hcount, hlargest]
    constructor
    · rintro ⟨b, hb, hfit⟩
      exact ⟨⟨b, hb, hfit.1⟩, .inr ⟨b, hb, hfit.1, hfit.2⟩⟩
    · rintro ⟨⟨b, hb, hfree⟩, hzero | ⟨d, hd, hfit⟩⟩
      · exact ⟨b, hb, hfree, hzero.trans (Nat.zero_le _)⟩
      · exact ⟨d, hd, hfit⟩

/-- A call that takes a block exactly when one fits returns, and with a pointer exactly when the
statistics say so. -/
theorem served_iff {σ : Type} {ret : Option (σ × Nat)} {t : σ} {n : Nat}
    (hfits : ∀ size, (∃ b ∈ l, Fits size b) ↔ 0 < st.numFree ∧ size ≤ st.largestFree)
    (hzero : n = 0 → ret = some (t, 0))
    (hfound : (ret = some (t, 0) ∧ (n = 0 ∨ ∀ d ∈ l, ¬ Fits (alignUp n) d)) ∨
      ∃ d ∈ l, Fits (alignUp n) d ∧ ∃ t', ret = some (t', d.addr + 40)) :
    ∃ t' p, ret = some (t', p) ∧ (p ≠ 0 ↔ st.Serves n) := by
  rw [Stats.Serves, ← hfits]
  rcases hfound with ⟨hnull, hno⟩ | ⟨d, hd, hfit, t', hsome⟩
  · refine ⟨t, 0, hnull, ?_⟩
    simp only [ne_eq, not_true_eq_false, false_iff, not_and, not_exists]
    exact fun hn d hd => hno.resolve_left hn d hd
  · refine ⟨t', d.addr + 40, hsome, fun _ => ⟨?_, d, hd, hfit⟩, fun _ => by omega⟩
    intro hn
    have hpair := Option.some.inj (hsome.symm.trans (hzero hn))
    exact absurd (Prod.mk.inj hpair).2 (by omega)

/-- In every heap that a client reaches the statistics are exact: the live blocks with their
bytes, and the rest of the region. And they tell beforehand what the next request gets: the call
returns, with a pointer if the statistics have room for it and with NULL if not. For the kernel
heap this is as long as `heap_expand` gets no memory. -/
theorem stats_predict (R : Region) (m : Mem) :
    (∀ (os : List Op) (c : Client Heap), Run (user R).step (user R).Permitted (userStart R m) os c →
      ∃ st, stats c.heap = some st ∧ Reports R c.heap.mem c.live st ∧
        ∀ n, ∃ s' p, userMalloc R c.heap n = some (s', p) ∧ (p ≠ 0 ↔ st.Serves n)) ∧
    ∀ (os : List Op) (c : Client Kernel.KHeap),
      Run (Kernel.kernel R).step
        (fun c o => (Kernel.kernel R).Permitted c o ∧ Kernel.NoExpand R c o)
        (Kernel.kernelStart R m) os c →
      ∃ st, stats c.heap.toHeap = some st ∧ Reports R c.heap.mem c.live st ∧
        ∀ n, Kernel.NoExpand R c (.malloc n) →
          ∃ s' p, Kernel.malloc R c.heap n = some (s', p) ∧ (p ≠ 0 ↔ st.Serves n) := by
  constructor
  · intro os c hr
    obtain ⟨l, hl⟩ := user_run hr
    obtain ⟨st, hst, hreports, hfits⟩ := hl.reports
    refine ⟨st, hst, hreports, fun n => ?_⟩
    refine served_iff (t := c.heap) hfits (fun hn => by rw [userMalloc_eq hl, if_pos hn]) ?_
    refine (userMalloc_found hl n).imp_right ?_
    rintro ⟨u, d, v, rfl, hfit, -, hsome⟩
    exact ⟨d, by simp, hfit, _, hsome⟩
  · intro os c hr
    obtain ⟨l, hl⟩ := Kernel.kernel_run hr
    obtain ⟨st, hst, hreports, hfits⟩ := hl.reports
    refine ⟨st, hst, hreports, fun n hno => ?_⟩
    refine served_iff (t := c.heap) hfits (fun hn => by rw [Kernel.malloc, if_pos hn]) ?_
    refine (Kernel.malloc_found hl hno).imp_right ?_
    rintro ⟨u, d, v, rfl, hfit, -, hsome⟩
    exact ⟨d, by simp, hfit, _, hsome⟩

/-- Two used heaps. A request of 1000 bytes gets a pointer in both, one for the whole region
NULL. -/
theorem stats_predict_demo :
    (∃ c st, Run (user region128).step (user region128).Permitted
        (userStart region128 fun _ => 0) userDemo c ∧ stats c.heap = some st ∧
      c.live = {0x200028, 0x200090} ∧ Reports region128 c.heap.mem c.live st ∧
      (∃ s' p, userMalloc region128 c.heap 1000 = some (s', p) ∧ p ≠ 0) ∧
      ∃ s', userMalloc region128 c.heap 0x8000000 = some (s', 0)) ∧
    ∃ c st, Run (Kernel.kernel region128).step
        (fun c o => (Kernel.kernel region128).Permitted c o ∧ Kernel.NoExpand region128 c o)
        (Kernel.kernelStart region128 fun _ => 0) Kernel.kernelDemo c ∧
      stats c.heap.toHeap = some st ∧ Reports region128 c.heap.mem c.live st ∧
      (∃ s' p, Kernel.malloc region128 c.heap 1000 = some (s', p) ∧ p ≠ 0) ∧
      ∃ s', Kernel.malloc region128 c.heap 0x8000000 = some (s', 0) := by
  obtain ⟨huser, hkernel⟩ := stats_predict region128 fun _ => 0
  constructor
  · have hexec : (exec (user region128).step (user region128).Permitted
        (userStart region128 fun _ => 0) userDemo).map (fun c => (c.live, (stats c.heap).map
          fun st => (decide (st.Serves 1000), decide (st.Serves 0x8000000)))) =
        some ({0x200028, 0x200090}, some (true, false)) := by
      decide +kernel
    obtain ⟨c, hc, heq⟩ := Option.map_eq_some_iff.mp hexec
    obtain ⟨hlive, hserves⟩ := Prod.mk.inj heq
    obtain ⟨st, hst, hreports, hnext⟩ := huser userDemo c (Run.of_exec hc)
    rw [hst, Option.map_some, Option.some.injEq, Prod.mk.injEq, decide_eq_true_iff,
      decide_eq_false_iff_not] at hserves
    obtain ⟨s₁, p₁, hret₁, hp₁⟩ := hnext 1000
    obtain ⟨s₂, p₂, hret₂, hp₂⟩ := hnext 0x8000000
    have hnull : p₂ = 0 := by
      by_contra hp
      exact hserves.2 (hp₂.mp hp)
    exact ⟨c, st, Run.of_exec hc, hst, hlive, hreports, ⟨s₁, p₁, hret₁, hp₁.mpr hserves.1⟩,
      s₂, hnull ▸ hret₂⟩
  · have hexec : (exec (Kernel.kernel region128).step
        (fun c o => (Kernel.kernel region128).Permitted c o ∧ Kernel.NoExpand region128 c o)
        (Kernel.kernelStart region128 fun _ => 0) Kernel.kernelDemo).map
          (fun c => ((stats c.heap.toHeap).map
            fun st => (decide (st.Serves 1000), decide (st.Serves 0x8000000)),
          decide (Kernel.NoExpand region128 c (.malloc 1000)),
          decide (Kernel.NoExpand region128 c (.malloc 0x8000000)))) =
        some (some (true, false), true, true) := by
      decide +kernel
    obtain ⟨c, hc, heq⟩ := Option.map_eq_some_iff.mp hexec
    obtain ⟨hserves, hno⟩ := Prod.mk.inj heq
    rw [Prod.mk.injEq, decide_eq_true_iff, decide_eq_true_iff] at hno
    obtain ⟨st, hst, hreports, hnext⟩ := hkernel Kernel.kernelDemo c (Run.of_exec hc)
    rw [hst, Option.map_some, Option.some.injEq, Prod.mk.injEq, decide_eq_true_iff,
      decide_eq_false_iff_not] at hserves
    obtain ⟨s₁, p₁, hret₁, hp₁⟩ := hnext 1000 hno.1
    obtain ⟨s₂, p₂, hret₂, hp₂⟩ := hnext 0x8000000 hno.2
    have hnull : p₂ = 0 := by
      by_contra hp
      exact hserves.2 (hp₂.mp hp)
    exact ⟨c, st, Run.of_exec hc, hst, hreports, ⟨s₁, p₁, hret₁, hp₁.mpr hserves.1⟩,
      s₂, hnull ▸ hret₂⟩

end KernelC.Malloc
