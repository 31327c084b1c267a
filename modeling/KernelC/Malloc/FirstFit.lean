import KernelC.Lib.FirstFit
import KernelC.Malloc.Canonical

/-!
# The user heap is first fit

With `user_malloc` and `user_free` the block list refines the ideal first-fit allocator over the
live blocks: each call answers what that allocator answers, whatever the programs have written
into their blocks and whatever was in the memory before.
-/

namespace KernelC.Malloc

/-- The user heap as an ideal allocator: `sizeof(user_block_t)` and `MIN_SPLIT_SIZE`. -/
def userArena (R : Region) : Arena := ⟨40, 48, R.lo, R.hi⟩

/-- What the call asks of the heap: `align_up(n)` bytes, which wraps above `2 ^ 64 - 8`.
`user_malloc(0)` asks for nothing. -/
def Op.request : Op → List Request
  | .malloc n => if n = 0 then [] else [.take (alignUp n)]
  | .free p => [.drop p]
  | _ => []

/-- What `user_malloc` returns. -/
def Op.answer (R : Region) (c : Client Heap) : Op → List Nat
  | .malloc n => if n = 0 then [] else ((userMalloc R c.heap n).map Prod.snd).toList
  | _ => []

/-- The pointers that the calls of a run return, in order. -/
def answers (R : Region) (c : Client Heap) : List Op → List Nat
  | [] => []
  | o :: os => o.answer R c ++
    match (user R).step c o with
    | none => []
    | some c' => answers R c' os

/-- The live blocks of a client. -/
def liveBlocks (c : Client Heap) : Set Block := {b | LiveBlock c b}

variable {R : Region} {m : Mem} {c c' : Client Heap} {l u v : List Block} {b d : Block}

theorem Canonical.liveBlocks_eq (h : Canonical R c.heap c.live l) :
    liveBlocks c = {b | b ∈ l ∧ b.free = false} := by
  ext b
  constructor
  · exact fun hb => ⟨(h.toHolds.mem_iff hb.1).mpr hb.2, hb.1⟩
  · exact fun hb => ⟨hb.2, (h.toHolds.mem_iff hb.2).mp hb.1⟩

/-- The gaps that hold `size` bytes are the free blocks that do. -/
theorem Canonical.room_iff (h : Canonical R c.heap c.live l) {size a e : Nat} :
    (userArena R).Room (liveBlocks c) size a e ↔
      ∃ b ∈ l, Fits size b ∧ b.addr = a ∧ b.addr + 40 + b.size = e := by
  have hgap := h.coalesced.free_iff_gap h.layout.tiles (by decide) (a := a) (e := e)
  have hset : (· ∈ liveBlocks c) = fun b => b ∈ l ∧ b.free = false := by
    rw [h.liveBlocks_eq]
    rfl
  constructor
  · intro hroom
    have hg := hroom.gap
    rw [hset] at hg
    obtain ⟨b, hb, hfree, rfl, rfl⟩ := hgap.mpr hg
    have hfits : b.addr + 40 + size ≤ b.addr + 40 + b.size := hroom.fits
    exact ⟨b, hb, ⟨hfree, by omega⟩, rfl, rfl⟩
  · rintro ⟨b, hb, hfit, rfl, rfl⟩
    refine ⟨?_, (h.layout.tiles.bounds hb).2, ?_⟩
    · rw [hset]
      exact hgap.mp ⟨b, hb, hfit.1, rfl, rfl⟩
    · have := hfit.2
      show b.addr + 40 + size ≤ b.addr + 40 + b.size
      omega

/-- The used block that `take` makes of the free block `d`. -/
def carve (d : Block) (size : Nat) : Block :=
  ⟨d.addr, if d.size < size + 48 then d.size else size, false⟩

theorem mem_cut_used (d : Block) (size : Nat) :
    b ∈ cut { d with free := false } size ∧ b.free = false ↔ b = carve d size := by
  unfold cut carve
  dsimp only
  split
  · simp only [List.mem_singleton]
    constructor
    · exact fun hb => hb.1
    · rintro rfl
      exact ⟨rfl, rfl⟩
  · simp only [List.mem_cons, List.not_mem_nil, or_false]
    constructor
    · rintro ⟨rfl | rfl, hfree⟩
      · rfl
      · cases hfree
    · rintro rfl
      exact ⟨.inl rfl, rfl⟩

/-- Taking the first block that fits. -/
theorem Canonical.carved (h : Canonical R c.heap c.live (u ++ d :: v)) {size : Nat}
    (hfit : Fits size d) (hfirst : ∀ b ∈ u, ¬ Fits size b) :
    (userArena R).Carved (liveBlocks c) size (carve d size) := by
  have hroom : (userArena R).Room (liveBlocks c) size d.addr (d.addr + 40 + d.size) :=
    h.room_iff.mpr ⟨d, by simp, hfit, rfl, rfl⟩
  refine ⟨rfl, ⟨_, hroom, ?_⟩, fun a e hae => ?_⟩
  · have hsub : d.addr + 40 + d.size - (d.addr + 40) = d.size := by omega
    simp only [carve, userArena, hsub]
  · obtain ⟨b, hb, hbfit, rfl, -⟩ := h.room_iff.mp hae
    show d.addr ≤ b.addr
    rcases List.mem_append.mp hb with hu | hdv
    · exact absurd hbfit (hfirst b hu)
    · rcases List.mem_cons.mp hdv with rfl | hv
      · exact Nat.le_refl _
      · have hsorted := (List.pairwise_append.mp h.layout.tiles.pairwise).2.1
        have := (List.pairwise_cons.mp hsorted).1 b hv
        omega

theorem Canonical.liveBlocks_take (h : Canonical R c.heap c.live (u ++ d :: v)) {size : Nat}
    (hfit : Fits size d) :
    liveBlocks ⟨(takeBlock userMagic c.heap d.addr size).1, insert (d.addr + 40) c.live⟩ =
      insert (carve d size) (liveBlocks c) := by
  have hd : ∀ b : Block, b.free = false → b ≠ d := by
    rintro b hb rfl
    exact absurd (hb.symm.trans hfit.1) (by decide)
  rw [(h.take hfit).liveBlocks_eq, h.liveBlocks_eq]
  ext b
  rw [Set.mem_insert_iff, ← mem_cut_used]
  simp only [Set.mem_ofPred_eq, List.mem_append, List.mem_cons]
  constructor
  · rintro ⟨hu | hcut | hv, hb⟩
    · exact .inr ⟨.inl hu, hb⟩
    · exact .inl ⟨hcut, hb⟩
    · exact .inr ⟨.inr (.inr hv), hb⟩
  · rintro (⟨hcut, hb⟩ | ⟨hu | rfl | hv, hb⟩)
    · exact ⟨.inr (.inl hcut), hb⟩
    · exact ⟨.inl hu, hb⟩
    · exact absurd rfl (hd b hb)
    · exact ⟨.inr (.inr hv), hb⟩

theorem Canonical.liveBlocks_free (h : Canonical R c.heap c.live (u ++ d :: v))
    (hd : d.free = false) :
    liveBlocks ⟨userFree c.heap (d.addr + 40), c.live.erase (d.addr + 40)⟩ =
      {b | b ∈ liveBlocks c ∧ b.addr + 40 ≠ d.addr + 40} := by
  rw [(h.free hd).liveBlocks_eq, h.liveBlocks_eq]
  ext b
  have hused := used_release u v d
  simp only [Set.mem_ofPred_eq]
  rw [← mem_used, hused, List.mem_append, mem_used, mem_used]
  -- the blocks before and behind are elsewhere
  have hne : ∀ b, b ∈ u ∨ b ∈ v → b.addr ≠ d.addr := by
    intro b hb
    obtain ⟨-, hsorted, hbefore⟩ := List.pairwise_append.mp h.layout.tiles.pairwise
    rcases hb with hu | hv
    · have := hbefore b hu d List.mem_cons_self
      omega
    · have := (List.pairwise_cons.mp hsorted).1 b hv
      omega
  constructor
  · intro hb
    have hmem : b ∈ u ∨ b ∈ v := hb.imp And.left And.left
    have haddr := hne b hmem
    refine ⟨?_, by omega⟩
    simp only [List.mem_append, List.mem_cons]
    tauto
  · rintro ⟨⟨hmem, hb⟩, haddr⟩
    have hbd : b ≠ d := by
      rintro rfl
      exact haddr rfl
    simp only [List.mem_append, List.mem_cons] at hmem
    tauto

/-! ## Runs -/

/-- Every call is what the ideal allocator does with its request. -/
theorem step_serves (h : Canonical R c.heap c.live l) {o : Op} (ho : MallocFree R c o)
    (hstep : (user R).step c o = some c') {rs : List Request} {ps : List Nat} {A : Set Block}
    (hrest : (userArena R).Serves (liveBlocks c') rs ps A) :
    (userArena R).Serves (liveBlocks c) (o.request ++ rs) (o.answer R c ++ ps) A := by
  cases o with
  | malloc n =>
    rw [Op.request, Op.answer]
    by_cases hn : n = 0
    · have hsame : userMalloc R c.heap n = some (c.heap, 0) := by
        rw [userMalloc_eq h.toHolds, if_pos hn]
      simp only [Allocator.step, user, hsame, Option.map_some, if_true] at hstep
      obtain rfl : c = c' := Option.some.inj hstep
      rw [if_pos hn, if_pos hn]
      exact hrest
    rw [if_neg hn, if_neg hn]
    rcases userMalloc_found h.toHolds n with ⟨hnull, hno⟩ | ⟨u, d, v, rfl, hfit, hfirst, hsome⟩
    · simp only [Allocator.step, user, hnull, Option.map_some, if_true] at hstep
      obtain rfl : c = c' := Option.some.inj hstep
      rw [hnull]
      refine .refused (fun a e hroom => ?_) hrest
      obtain ⟨b, hb, hfit, -⟩ := h.room_iff.mp hroom
      exact (hno.resolve_left hn) b hb hfit
    · simp only [Allocator.step, user, hsome, Option.map_some] at hstep
      rw [if_neg (by omega)] at hstep
      obtain rfl := Option.some.inj hstep
      rw [h.liveBlocks_take hfit] at hrest
      rw [hsome]
      exact .carved (b := carve d (alignUp n)) (h.carved hfit hfirst) hrest
  | free p =>
    simp only [Allocator.step, user] at hstep
    obtain rfl := Option.some.inj hstep
    refine .dropped ?_
    rcases ho.1 with rfl | hp
    · have hsame : {b | b ∈ liveBlocks c ∧ b.addr + 40 ≠ 0} = liveBlocks c := by
        ext b
        simp
      rw [Finset.erase_eq_of_notMem h.toHolds.zero_notMem] at hrest
      show (userArena R).Serves {b | b ∈ liveBlocks c ∧ b.addr + 40 ≠ 0} rs ps A
      rw [hsame]
      exact hrest
    · obtain ⟨u, d, v, rfl, hd, rfl⟩ := h.toHolds.block hp
      rw [h.liveBlocks_free hd] at hrest
      exact hrest
  | realloc p n => exact absurd ho.2 id
  | write p off bs =>
    have hw := h.toHolds.clientWrite ho.1.1 ho.1.2
    simp only [Allocator.step, user] at hstep
    obtain rfl := Option.some.inj hstep
    have hsame : liveBlocks { c with heap := { c.heap with mem := store c.heap.mem (p + off) bs } } =
        liveBlocks c := by
      rw [Canonical.liveBlocks_eq (l := l) ⟨hw, h.coalesced⟩, h.liveBlocks_eq]
    rw [hsame] at hrest
    exact hrest

theorem run_serves (h : Canonical R c.heap c.live l) {os : List Op}
    (hr : Run (user R).step (MallocFree R) c os c') :
    (userArena R).Serves (liveBlocks c) (os.flatMap Op.request) (answers R c os)
      (liveBlocks c') := by
  induction hr generalizing l with
  | nil c => exact .done _
  | cons ho hs _ ih =>
    obtain ⟨l', hl'⟩ := h.step ho hs
    rw [List.flatMap_cons, answers, hs]
    exact step_serves h ho hs (ih hl')

/-- Every run of `user_malloc` and `user_free` is one of the ideal allocator: a request is served
from the lowest gap between the live blocks that holds it, and refused only if there is none. So
the same requests get the same answers, whatever is written in between and whatever the memory
held at first. -/
theorem user_heap_first_fit (R : Region) (m : Mem) {os : List Op} {c : Client Heap}
    (hr : Run (user R).step (MallocFree R) (userStart R m) os c) :
    (userArena R).Serves ∅ (os.flatMap Op.request) (answers R (userStart R m) os)
      (liveBlocks c) ∧
    ∀ (m' : Mem) (os' : List Op) (c' : Client Heap),
      Run (user R).step (MallocFree R) (userStart R m') os' c' →
      os'.flatMap Op.request = os.flatMap Op.request →
      answers R (userStart R m') os' = answers R (userStart R m) os ∧
        liveBlocks c' = liveBlocks c := by
  have hserves : ∀ {m : Mem} {os : List Op} {c : Client Heap},
      Run (user R).step (MallocFree R) (userStart R m) os c →
      (userArena R).Serves ∅ (os.flatMap Op.request) (answers R (userStart R m) os)
        (liveBlocks c) := by
    intro m os c hr
    have hstart : Canonical R (userStart R m).heap (userStart R m).live
        [⟨R.lo, R.hi - R.lo - 40, true⟩] :=
      ⟨userStart_holds R m, List.isChain_singleton _⟩
    have hnone : liveBlocks (userStart R m) = ∅ := by
      ext b
      simp [liveBlocks, LiveBlock, userStart]
    rw [← hnone]
    exact run_serves hstart hr
  refine ⟨hserves hr, fun m' os' c' hr' hsame => ?_⟩
  have hserves' := hserves hr'
  rw [hsame] at hserves'
  exact hserves'.unique (hserves hr)

/-- The gap of two freed blocks is used again; in the second run the programs write, and the
memory is not clear. -/
def reuse : List Op :=
  [.malloc 24, .malloc 3, .malloc 100, .free 0x200028, .free 0x200068, .malloc 200, .malloc 30]

def reuseWriting : List Op :=
  [.malloc 24, .write 0x200028 0 [1, 2, 3], .malloc 3, .malloc 100, .write 0x200098 96 [7],
    .malloc 0, .free 0x200028, .free 0x200068, .malloc 200, .malloc 30]

theorem user_heap_first_fit_reuse :
    ∃ c c', Run (user region128).step (MallocFree region128) (userStart region128 fun _ => 0)
        reuse c ∧
      Run (user region128).step (MallocFree region128) (userStart region128 fun _ => 0xAA)
        reuseWriting c' ∧
      answers region128 (userStart region128 fun _ => 0xAA) reuseWriting =
        [0x200028, 0x200068, 0x200098, 0x200128, 0x200028] ∧
      liveBlocks c' = liveBlocks c := by
  have hexec : (exec (user region128).step (MallocFree region128)
      (userStart region128 fun _ => 0) reuse).map
        (fun _ => answers region128 (userStart region128 fun _ => 0) reuse) =
      some [0x200028, 0x200068, 0x200098, 0x200128, 0x200028] := by
    decide +kernel
  have hexec' : ((exec (user region128).step (MallocFree region128)
      (userStart region128 fun _ => 0xAA) reuseWriting).map fun _ => ()) = some () := by
    decide +kernel
  obtain ⟨c, hc, hanswers⟩ := Option.map_eq_some_iff.mp hexec
  obtain ⟨c', hc', -⟩ := Option.map_eq_some_iff.mp hexec'
  obtain ⟨-, hsame⟩ := user_heap_first_fit region128 (fun _ => 0) (Run.of_exec hc)
  obtain ⟨heq, hlive⟩ := hsame (fun _ => 0xAA) reuseWriting c' (Run.of_exec hc') (by decide)
  exact ⟨c, c', Run.of_exec hc, Run.of_exec hc', heq.trans hanswers, hlive⟩

end KernelC.Malloc
