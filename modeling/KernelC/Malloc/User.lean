import KernelC.Malloc.Realloc

/-!
# The user heap: `malloc/user_malloc.c`

The functions of the user allocator, and the invariant of its block list over
every run of a client.

Results: `userMalloc_found` and `userRealloc_to` say what one call does;
`user_heap_tiling` is the state of the heap after any run.
-/

namespace KernelC.Malloc

open Block

def userMagic : Nat := 0xC0FFEE00

def userMallocInit (R : Region) (s : Heap) : Heap :=
  if s.head ≠ 0 then s
  else { mem := firstBlock userMagic s.mem R.lo (R.hi - R.lo), head := R.lo, tail := R.lo }

def userMalloc (R : Region) (s : Heap) (size : Nat) : Option (Heap × Nat) :=
  let s := if s.head = 0 then userMallocInit R s else s
  if size = 0 then some (s, 0)
  else
    (findFit s (alignUp size)).map fun fit =>
      if fit = 0 then (s, 0) else takeBlock userMagic s fit (alignUp size)

def userFree (s : Heap) (ptr : Nat) : Heap := freeBlock userMagic s ptr

def userRealloc (R : Region) (s : Heap) (ptr newSize : Nat) : Option (Heap × Nat) :=
  if ptr = 0 then userMalloc R s newSize
  else if newSize = 0 then some (userFree s ptr, 0)
  else
    let h := payloadToHeader ptr
    if get s.mem h .magic ≠ userMagic then some (s, 0)
    else
      let new := alignUp newSize
      if new ≤ get s.mem h .size then some (splitBlock userMagic s h new, ptr)
      else
        let n := get s.mem h .next
        if n ≠ 0 ∧ get s.mem n .free ≠ 0 ∧
            new ≤ wadd (wadd (get s.mem h .size) 40) (get s.mem n .size) then
          -- in place: the next block joins, what is too much is split off again
          some ((takeBlock userMagic { s with mem := absorb s.mem h n } h new).1, ptr)
        else
          (userMalloc R s new).map fun r =>
            if r.2 = 0 then (r.1, 0)
            else
              let m := memcpy r.1.mem r.2 ptr (get r.1.mem h .size)
              (userFree { r.1 with mem := m } ptr, r.2)

/-- The user allocator as its clients see it. -/
def user (R : Region) : Allocator Heap where
  mem := Heap.mem
  setMem s m := { s with mem := m }
  malloc := userMalloc R
  free := userFree
  realloc := userRealloc R

/-- The user heap as `kmain` leaves it, over any contents of the memory. -/
def userStart (R : Region) (m : Mem) : Client Heap :=
  ⟨userMallocInit R ⟨m, 0, 0⟩, ∅⟩

variable {R : Region} {s : Heap} {live : Finset Nat} {l : List Block} {c : Client Heap}

theorem userMalloc_eq (h : Holds userMagic R s live l) (n : Nat) :
    userMalloc R s n =
      if n = 0 then some (s, 0)
      else (findFit s (alignUp n)).map fun fit =>
        if fit = 0 then (s, 0) else takeBlock userMagic s fit (alignUp n) := by
  have hhead : s.head ≠ 0 := by
    have := R.lo_ge
    rw [h.head]
    omega
  unfold userMalloc
  rw [if_neg hhead]

/-- `user_malloc` takes the first block that fits, and returns NULL where there is none. -/
theorem userMalloc_found (h : Holds userMagic R s live l) (n : Nat) :
    (userMalloc R s n = some (s, 0) ∧ (n = 0 ∨ ∀ d ∈ l, ¬ Fits (alignUp n) d)) ∨
    ∃ u d v, l = u ++ d :: v ∧ Fits (alignUp n) d ∧ (∀ c ∈ u, ¬ Fits (alignUp n) c) ∧
      userMalloc R s n = some ((takeBlock userMagic s d.addr (alignUp n)).1, d.addr + 40) := by
  rw [userMalloc_eq h]
  by_cases hn : n = 0
  · exact .inl ⟨if_pos hn, .inl hn⟩
  rw [if_neg hn]
  rcases findFit_cases h.layout h.head (alignUp n) with
    ⟨hnone, hno⟩ | ⟨u, d, v, rfl, hfit, hfirst, hsome⟩
  · exact .inl ⟨by rw [hnone]; rfl, .inr hno⟩
  · refine .inr ⟨u, d, v, rfl, hfit, hfirst, ?_⟩
    rw [hsome, Option.map_some, if_neg (h.layout.addr_ne_zero d (by simp)),
      ← (takeBlock_spec h.layout hfit.2).2]

theorem userMalloc_holds (h : Holds userMagic R s live l) (n : Nat) :
    ∃ s' q l', userMalloc R s n = some (s', q) ∧
      Holds userMagic R s' (if q = 0 then live else insert q live) l' := by
  rcases userMalloc_found h n with ⟨hnull, -⟩ | ⟨u, d, v, rfl, hfit, -, hsome⟩
  · exact ⟨s, 0, l, hnull, h⟩
  · refine ⟨_, _, u ++ (cut { d with free := false } (alignUp n) ++ v), hsome, ?_⟩
    rw [if_neg (by omega)]
    exact h.take hfit

/-! ## Reallocation -/

/-- The assignments of the growth in place are those of a merge. -/
theorem absorb_eq {m : Mem} {u v : List Block} {b c : Block}
    (h : Layout userMagic R m (u ++ b :: c :: v)) :
    absorb m b.addr c.addr = mergeBlock m b.addr (b.size + 40 + c.size) (first v 0) := by
  have h' : Layout userMagic R m ((u ++ [b]) ++ c :: v) := by simpa using h
  have hc := h'.stored
  have hbd := h'.bounds (b := b) (by simp)
  have hcd := h'.bounds (b := c) (by simp)
  have hbc := h'.before (a := b) (c := c) (by simp) (by simp)
  unfold absorb mergeBlock
  simp (disch := omega) only [get_put_apart, h.stored.size, hc.size, hc.next, wadd_eq]

section

variable {u v : List Block} {b : Block} {n : Nat}

/-- The end of `user_realloc`: no room in place. -/
theorem userRealloc_move (h : Holds userMagic R s live (u ++ b :: v)) (hused : b.free = false)
    (hbig : b.size < alignUp n) :
    ∃ s' q l', (userMalloc R s (alignUp n)).map (fun r =>
        if r.2 = 0 then (r.1, 0)
        else
          let m := memcpy r.1.mem r.2 (b.addr + 40) (get r.1.mem b.addr .size)
          (userFree { r.1 with mem := m } (b.addr + 40), r.2)) = some (s', q) ∧
      ReallocTo userMagic s u b v (alignUp n) s' q l' := by
  rcases userMalloc_found h (alignUp n) with
    ⟨hnull, hzero | hnone⟩ | ⟨u₁, d, v₁, hlist, hfit, -, hsome⟩
  · omega
  · rw [alignUp_alignUp] at hnone
    exact ⟨_, _, _, by rw [hnull]; rfl, .fail hbig hnone⟩
  · rw [alignUp_alignUp] at hfit hsome
    have h₁ : Holds userMagic R s live (u₁ ++ d :: v₁) := by rwa [← hlist]
    have ht := h₁.taken hfit
    obtain ⟨u₂, v₂, hsplit⟩ := List.append_of_mem (ht.used b (by rw [← hlist]; simp) hused).1
    refine ⟨_, _, _, ?_, .move hbig hlist hfit hsplit⟩
    rw [hsplit] at ht
    rw [hsome, Option.map_some, if_neg (by omega), ht.holds.layout.stored.size]
    rfl

/-- What `user_realloc` does with a block: it grows over the next one, if that is free. -/
theorem userRealloc_to (h : Holds userMagic R s live (u ++ b :: v)) (hused : b.free = false)
    (hn : n ≠ 0) :
    ∃ s' q l', userRealloc R s (b.addr + 40) n = some (s', q) ∧
      ReallocTo userMagic s u b v (alignUp n) s' q l' := by
  have hb := h.layout.stored
  unfold userRealloc
  rw [if_neg (by omega), if_neg hn, payloadToHeader_eq h.layout]
  simp only [hb.magic, hb.size, hb.next, ne_eq, not_true_eq_false, if_false]
  by_cases hshrink : alignUp n ≤ b.size
  · rw [if_pos hshrink]
    exact ⟨_, _, _, rfl, .shrink hshrink⟩
  rw [if_neg hshrink]
  split
  · next hgrow =>
    -- the condition of the source says that there is a next block and that it is free
    obtain ⟨hnext, hfree, hroom⟩ := hgrow
    cases v with
    | nil => exact absurd rfl hnext
    | cons c v =>
      have h' : Layout userMagic R s.mem ((u ++ [b]) ++ c :: v) := by simpa using h.layout
      have hc := h'.stored
      have hbd := h'.bounds (b := b) (by simp)
      have hcd := h'.bounds (b := c) (by simp)
      have hbc := h'.before (a := b) (c := c) (by simp) (by simp)
      rw [first_cons] at hfree hroom ⊢
      rw [hc.size, wadd_eq (a := b.size) (by omega), wadd_eq (by omega)] at hroom
      rw [absorb_eq h.layout]
      refine ⟨_, _, _, rfl, .grow (w := [c]) (by omega) rfl ?_ ?_ hroom⟩
      · simpa using hc.free_ne_zero.mp hfree
      · rw [extent_cons, extent_nil]
        omega
  · exact userRealloc_move h hused (by omega)

end

/-- `user_realloc` always returns, and leaves a block list whose used blocks are
those of the pointers that are then live. -/
theorem userRealloc_holds (h : Holds userMagic R s live l) {p : Nat} (hp : p = 0 ∨ p ∈ live)
    (n : Nat) :
    ∃ s' q l', userRealloc R s p n = some (s', q) ∧
      Holds userMagic R s' (liveAfterRealloc live p n q) l' := by
  rcases hp with rfl | hlive
  · simp only [liveAfterRealloc_null h.zero_notMem]
    exact userMalloc_holds h n
  have hp0 : p ≠ 0 := fun hz => h.zero_notMem (hz ▸ hlive)
  by_cases hn : n = 0
  · obtain ⟨l', hl'⟩ := h.free_cases (.inr hlive)
    subst hn
    refine ⟨_, _, l', by rw [userRealloc, if_neg hp0, if_pos rfl], hl'⟩
  obtain ⟨u, b, v, rfl, hused, rfl⟩ := h.block hlive
  obtain ⟨s', q, l', hret, hto⟩ := userRealloc_to h hused hn
  exact ⟨s', q, l', hret, hto.holds h hused hn⟩

theorem userFree_holds (h : Holds userMagic R s live l) {p : Nat} (hp : p = 0 ∨ p ∈ live) :
    ∃ l', Holds userMagic R (userFree s p) (live.erase p) l' :=
  h.free_cases hp

/-- One call of a client, or one write. -/
theorem user_step (h : Holds userMagic R c.heap c.live l) {o : Op} (ho : (user R).Permitted c o) :
    ∃ c' l', (user R).step c o = some c' ∧ Holds userMagic R c'.heap c'.live l' := by
  cases o with
  | malloc n =>
    obtain ⟨s', q, l', hret, hl'⟩ := userMalloc_holds h n
    exact ⟨⟨s', if q = 0 then c.live else insert q c.live⟩, l', by simp [Allocator.step, user, hret],
      hl'⟩
  | free p =>
    obtain ⟨l', hl'⟩ := userFree_holds h ho
    exact ⟨_, l', rfl, hl'⟩
  | realloc p n =>
    obtain ⟨s', q, l', hret, hl'⟩ := userRealloc_holds h ho.1 n
    exact ⟨⟨s', liveAfterRealloc c.live p n q⟩, l', by simp [Allocator.step, user, hret], hl'⟩
  | write p off bs =>
    obtain ⟨hp, hoff⟩ := ho
    exact ⟨_, l, rfl, h.clientWrite hp hoff⟩

theorem userStart_holds (R : Region) (m : Mem) :
    Holds userMagic R (userStart R m).heap (userStart R m).live
      [⟨R.lo, R.hi - R.lo - 40, true⟩] :=
  holds_firstBlock R m R.lo (by decide)

theorem user_run {m : Mem} {os : List Op}
    (hr : Run (user R).step (user R).Permitted (userStart R m) os c) :
    ∃ l, Holds userMagic R c.heap c.live l := by
  refine hr.keeps (I := fun c => ∃ l, Holds userMagic R c.heap c.live l) ?_
    ⟨_, userStart_holds R m⟩
  rintro c o ⟨l, hl⟩ ho
  obtain ⟨c', l', hc', hl'⟩ := user_step hl ho
  exact ⟨c', hc', l', hl'⟩

/-- The block list of a heap, read off the memory: the list from the head along
`next` is `l`, it tiles the region, and its used blocks are the live pointers. -/
structure Tiled (magic : Nat) (R : Region) (c : Client Heap) (l : List Block) : Prop where
  list : Path (fun a => get c.heap.mem a .next) c.heap.head (l.map Block.addr) 0
  nonnull : ∀ b ∈ l, b.addr ≠ 0
  tiles : Tiles 40 R.lo l R.hi
  size : ∀ b ∈ l, get c.heap.mem b.addr .size = b.size
  magic : ∀ b ∈ l, get c.heap.mem b.addr .magic = magic
  first : get c.heap.mem c.heap.head .prev = 0
  inverse : ∀ a ∈ l, ∀ b ∈ l,
    get c.heap.mem a.addr .next = b.addr ↔ get c.heap.mem b.addr .prev = a.addr
  live : ∀ p, p ∈ c.live ↔ ∃ b ∈ l, get c.heap.mem b.addr .free = 0 ∧ p = b.addr + 40

theorem Holds.tiled {magic : Nat} (h : Holds magic R c.heap c.live l) : Tiled magic R c l := by
  have hstored : ∀ b ∈ l, ∃ p n, Stored magic c.heap.mem b p n := by
    intro b hb
    obtain ⟨u, v, rfl⟩ := List.append_of_mem hb
    exact ⟨_, _, h.layout.stored⟩
  have hhead := h.layout.head_eq
  rw [← h.head] at hhead
  refine ⟨?_, h.layout.addr_ne_zero, h.layout.tiles, fun b hb => ?_, fun b hb => ?_, ?_,
    fun a ha b hb => h.layout.inverse ha hb, fun p => ?_⟩
  · rw [← hhead]
    exact linked_path h.layout.linked
  · obtain ⟨p, n, hs⟩ := hstored b hb
    exact hs.size
  · obtain ⟨p, n, hs⟩ := hstored b hb
    exact hs.magic
  · cases l with
    | nil =>
      have h1 := R.room
      have h2 : R.lo = R.hi := h.layout.tiles
      omega
    | cons b l =>
      rw [← hhead]
      exact h.layout.linked.1.prev
  · rw [h.live, mem_payloads]
    constructor
    · rintro ⟨b, hb, hfree, rfl⟩
      obtain ⟨p, n, hs⟩ := hstored b hb
      exact ⟨b, hb, by rw [hs.free, hfree]; rfl, rfl⟩
    · rintro ⟨b, hb, hfree, rfl⟩
      obtain ⟨p, n, hs⟩ := hstored b hb
      refine ⟨b, hb, ?_, rfl⟩
      rw [hs.free] at hfree
      exact Bool.toNat_eq_zero.mp hfree

/-- After every run of a client the block list tiles the user region and its used
blocks are the live pointers, so live payloads are disjoint and the statistics
count the whole region; and the next call returns. -/
theorem user_heap_tiling (R : Region) (m : Mem) {os : List Op} {c : Client Heap}
    (hr : Run (user R).step (user R).Permitted (userStart R m) os c) :
    (∃ l, Tiled userMagic R c l) ∧
    (∀ p ∈ c.live, ∀ q ∈ c.live, p ≠ q →
      p + blockSize c.heap.mem p ≤ q ∨ q + blockSize c.heap.mem q ≤ p) ∧
    (∃ st, stats c.heap = some st ∧ st.totalManaged = R.hi - R.lo) ∧
    ∀ o, (user R).Permitted c o → ∃ c', (user R).step c o = some c' := by
  obtain ⟨l, hl⟩ := user_run hr
  refine ⟨⟨l, hl.tiled⟩, hl.separated.apart, ?_, fun o ho => ?_⟩
  · refine ⟨_, stats_eq hl.layout hl.head, ?_⟩
    have := R.hi_lt
    rw [foldl_totalManaged hl.layout.tiles _ (by dsimp only; omega)]
    simp
  · obtain ⟨c', -, hc', -⟩ := user_step hl ho
    exact ⟨c', hc'⟩

/-- Two blocks, the first grown in place and written, the second freed. -/
def userDemo : List Op :=
  [.malloc 24, .malloc 3, .free 0x200068, .realloc 0x200028 64, .write 0x200028 63 [7],
    .malloc 100]

theorem user_heap_tiling_demo :
    ∃ c, Run (user region128).step (user region128).Permitted
        (userStart region128 fun _ => 0) userDemo c ∧
      c.live = {0x200028, 0x200090} ∧ (∃ l, Tiled userMagic region128 c l) ∧
      ∃ st, stats c.heap = some st ∧ st.totalManaged = 0x8000000 := by
  have hexec : (exec (user region128).step (user region128).Permitted
      (userStart region128 fun _ => 0) userDemo).map Client.live = some {0x200028, 0x200090} := by
    decide +kernel
  obtain ⟨c, hc, hlive⟩ := Option.map_eq_some_iff.mp hexec
  obtain ⟨htiled, -, hstats, -⟩ := user_heap_tiling region128 (fun _ => 0) (Run.of_exec hc)
  exact ⟨c, Run.of_exec hc, hlive, htiled, hstats⟩

end KernelC.Malloc
