import KernelC.Malloc.Brk
import KernelC.Malloc.Canonical
import KernelC.Malloc.Thread

/-!
# The tail of the kernel's block list

`heap_expand` appends its block behind `heap_tail`. The growth in place of
`realloc` does not move `heap_tail` when it takes over the last block, and from
then on a block that is appended is linked to a header that is no longer in the
list.

`Tidy R c o` says that the operation `o` is not of this kind, and that it puts no
header and copies no byte over a header of the list; after an expansion, whose
block lies in another one, this has to be said.

Results:
1. `expand_threaded`: a block that is appended is in the list, and is found.
2. `tidy_of_noExpand`: before the first expansion, every operation is tidy that
   does not grow a block over the last one.
3. `tail_is_last` over runs of tidy operations; `grown_over_last`.
-/

namespace KernelC.Malloc.Kernel

open Block

variable {R : Region} {e : Nat} {s s' : KHeap} {live : Finset Nat} {l r : List Block} {b : Block}
  {c : Client KHeap} {size : Nat}

/-! ## The condition -/

/-- The blocks of the list that starts at `heap_head`. -/
def blocks (s : KHeap) : List Block := (blockList s.toHeap).getD []

/-- The block that `find_fit` returns. -/
def fitOf (s : KHeap) (size : Nat) : Nat := (findFit s.toHeap size).getD 0

/-- An allocation of `size` bytes puts no header over one of the list: neither behind the block it
takes nor, when there is none, where `heap_expand` puts its block. -/
def TidyAlloc (R : Region) (s : KHeap) (size : Nat) : Prop :=
  (fitOf s size ≠ 0 → size + 48 ≤ get s.mem (fitOf s size) .size →
    Misses (blocks s) (fitOf s size + 40 + size) 40) ∧
  (Expands R s size → size + 40 ≤ s.brk ∧ Misses (blocks s) (s.brk - (size + 40)) 40)

/-- The first `k` bytes of the block it takes cover no header. -/
def TidyCopy (R : Region) (s : KHeap) (size k : Nat) : Prop :=
  (fitOf s size ≠ 0 → Misses (blocks s) (fitOf s size + 40) k) ∧
  (Expands R s size → Misses (blocks s) (s.brk - size) k)

/-- The block at `h` grows to `new` bytes over blocks of which the last one is not one, and the
header behind it is put over none that is left. -/
def TidyGrow (s : KHeap) (h new : Nat) : Prop :=
  let before := (blocks s).takeWhile fun c => c.addr ≠ h
  let stop := runEnd new (get s.mem h .size) ((blocks s).dropWhile fun c => c.addr ≠ h).tail
  stop.2 ≠ [] ∧ (new + 48 ≤ stop.1 → Misses (before ++ stop.2) (h + 40 + new) 40)

/-- A reallocation of the block at `h` to `new` bytes. -/
def TidyResize (R : Region) (s : KHeap) (h new : Nat) : Prop :=
  if new ≤ get s.mem h .size then
    new + 48 ≤ get s.mem h .size → Misses (blocks s) (h + 40 + new) 40
  else if hasRoom s.mem h new = some true then TidyGrow s h new
  else TidyAlloc R s new ∧ TidyCopy R s new (get s.mem h .size)

def Tidy (R : Region) (c : Client KHeap) : Op → Prop
  | .malloc n => n = 0 ∨ TidyAlloc R c.heap (alignUp n)
  | .free _ => True
  | .realloc p n =>
    n = 0 ∨ (p = 0 ∧ TidyAlloc R c.heap (alignUp n)) ∨
      (p ≠ 0 ∧ TidyResize R c.heap (payloadToHeader p) (alignUp n))
  | .write p off bs => Misses (blocks c.heap) (p + off) bs.length

instance (R : Region) (s : KHeap) (size : Nat) : Decidable (TidyAlloc R s size) :=
  inferInstanceAs (Decidable (_ ∧ _))

instance (R : Region) (s : KHeap) (size k : Nat) : Decidable (TidyCopy R s size k) :=
  inferInstanceAs (Decidable (_ ∧ _))

instance (s : KHeap) (h new : Nat) : Decidable (TidyGrow s h new) :=
  inferInstanceAs (Decidable (_ ∧ _))

instance (R : Region) (s : KHeap) (h new : Nat) : Decidable (TidyResize R s h new) :=
  inferInstanceAs (Decidable (if new ≤ get s.mem h .size then _ → _
    else if hasRoom s.mem h new = some true then TidyGrow s h new else _ ∧ _))

instance (R : Region) (c : Client KHeap) : (o : Op) → Decidable (Tidy R c o)
  | .malloc _ => inferInstanceAs (Decidable (_ ∨ _))
  | .free _ => inferInstanceAs (Decidable True)
  | .realloc _ _ => inferInstanceAs (Decidable (_ ∨ _))
  | .write _ _ _ => inferInstanceAs (Decidable (Misses _ _ _))

/-! ## Appending a block -/

/-- The header of the new block, and of the others the link of the last one. -/
theorem appendBlock_linked (h : Threaded kernelMagic R e s.toHeap live l) {p : Nat}
    (hmiss : Misses l p 40) (hp : p < 2 ^ 64) (hsize : size < 2 ^ 64) :
    Linked (Stored kernelMagic (appendBlock s p size).mem) 0 (l ++ [⟨p, size, true⟩]) 0 := by
  have htail : s.tail = last 0 l := h.tail
  have hchain := h.chain
  unfold appendBlock
  dsimp only
  rw [linked_append, htail]
  cases l using List.reverseRecOn with
  | nil =>
    refine ⟨trivial, ⟨?_, ?_, ?_, ?_, ?_⟩, trivial⟩ <;>
    simp (disch := omega) [Nat.mod_eq_of_lt, Field.width, kernelMagic]
  | append_singleton l t =>
    have ht := hchain.stored
    have htd := hchain.bounds (b := t) (by simp)
    have htp := hmiss t (by simp)
    rw [last_append, last_cons, last_nil, if_pos (by omega)]
    refine ⟨linked_append.mpr ⟨?_, ⟨?_, ?_, ?_, ?_, ?_⟩, trivial⟩, ⟨?_, ?_, ?_, ?_, ?_⟩, trivial⟩
    · refine (linked_append.mp hchain.linked).1.mono fun c hc q k hs => hs.congr fun f => ?_
      have hct := hchain.spread.header (.inl hc)
      have hcp := hmiss c (by simp [hc])
      simp (disch := omega) only [get_put_apart]
    all_goals
      simp (disch := omega) [get_put_apart, ht.magic, ht.size, ht.free, ht.prev,
        Nat.mod_eq_of_lt, Field.width, kernelMagic]

/-- `heap_expand` appends a block whose header misses those of the list. -/
theorem appendBlock_threaded (h : Threaded kernelMagic R e s.toHeap live l) {p : Nat}
    (hlo : R.lo ≤ p) (hmiss : Misses l p 40) (hp : p ≤ e) (he : e + (40 + size) < 2 ^ 64) :
    Threaded kernelMagic R (e + (40 + size)) (appendBlock s p size).toHeap live
      (l ++ [⟨p, size, true⟩]) := by
  have hRlo := R.lo_ge
  refine ⟨⟨appendBlock_linked h hmiss (by omega) (by omega), ?_, he⟩, ?_, ?_, ?_⟩
  · refine Spread.insert (r := []) (by simpa using h.chain.spread) hlo (fun c hc => ?_)
      (h.chain.spread.spans.concat (b := ⟨p, size, true⟩) hp)
    exact hmiss c (by simpa using hc)
  · have hhead : s.head = first l 0 := h.head
    unfold appendBlock
    dsimp only
    rw [hhead, first_append]
    cases l with
    | nil => rfl
    | cons c t => exact if_neg (h.chain.addr_ne_zero c (by simp))
  · unfold AtTail
    rw [last_middle]
    rfl
  · rw [payloads_append]
    simpa [payloads] using h.live

/-! ## Allocation -/

theorem fitOf_eq {a : Nat} (h : findFit s.toHeap size = some a) : fitOf s size = a := by
  rw [fitOf, h]
  rfl

/-- The kernel heap: its list from end to end, as far as `brk` was moved. -/
structure Whole (R : Region) (s : KHeap) (live : Finset Nat) (l : List Block) : Prop where
  thread : Threaded kernelMagic R (2 * R.hi - s.brk) s.toHeap live l
  start : s.head ≠ 0
  brk : BrkInside R s
  low : R.hi ≤ 2 ^ 63

theorem Whole.blocks_eq (h : Whole R s live l) : blocks s = l := by
  unfold blocks
  rw [h.thread.chain.blockList_eq h.thread.head]
  rfl

theorem Whole.free (h : Whole R s live (l ++ b :: r)) (hused : b.free = false) :
    Whole R (free s (b.addr + 40)) (live.erase (b.addr + 40)) (release l b r) := by
  refine ⟨?_, ?_, h.brk.of_eq rfl, h.low⟩
  · rw [free_toHeap]
    exact h.thread.free hused
  · rw [free_toHeap, freeBlock_head]
    exact h.start

theorem Whole.write (h : Whole R s live l) {a k : Nat} {m' : Mem} (hmiss : Misses l a k)
    (hm : ∀ x, x < a ∨ a + k ≤ x → m' x = s.mem x) : Whole R { s with mem := m' } live l :=
  ⟨h.thread.write hmiss hm, h.start, h.brk.of_eq rfl, h.low⟩

/-- A block that is appended is in the list, and is the one that `find_fit` returns. -/
theorem expand_threaded (h : Whole R s live l) (hexp : Expands R s size)
    (hsize : size % 8 = 0) (ht : TidyAlloc R s size) :
    ∃ t, heapExpand R s size = (t, true) ∧ t.tail = s.brk - (size + 40) ∧
      Whole R t live (l ++ [⟨t.tail, size, true⟩]) ∧
      findFit t.toHeap size = some t.tail := by
  obtain ⟨hroom, hmiss⟩ := ht.2 hexp
  obtain ⟨hblo, hbhi⟩ := h.brk
  have hlow := h.low
  have hlo := R.lo_ge
  have hneed := need_eq hsize (by omega : size + 40 < 2 ^ 64)
  have hsub : wsub s.brk (size + 40) = s.brk - (size + 40) := wsub_eq hroom (by omega)
  have hnone := hexp.1
  have hge := hexp.2
  rw [alignUp_alignUp, hneed, hsub] at hge
  rw [h.blocks_eq] at hmiss
  rcases heapExpand_cases R s size with ⟨hlt, -⟩ | ⟨-, hret⟩
  · rw [hneed, hsub] at hlt
    omega
  rw [hneed, hsub, wsub_eq (by omega) (by omega), Nat.add_sub_cancel] at hret
  have happ := appendBlock_threaded h.thread hge hmiss (by omega)
    (show 2 * R.hi - s.brk + (40 + size) < 2 ^ 64 by omega)
  have hbrk : 2 * R.hi - s.brk + (40 + size) =
      2 * R.hi - (appendBlock s (s.brk - (size + 40)) size).brk := by
    change _ = 2 * R.hi - (s.brk - (size + 40))
    omega
  rw [hbrk] at happ
  refine ⟨_, hret, rfl, ⟨happ, ?_, ⟨hge, ?_⟩, hlow⟩, ?_⟩
  · change (if s.head = 0 then _ else s.head) ≠ 0
    rw [if_neg h.start]
    exact h.start
  · change s.brk - (size + 40) ≤ R.hi
    omega
  · -- none of the blocks before fits, so the new one is the first
    obtain ⟨-, hno⟩ := (h.thread.chain.findFit_cases h.thread.head size).resolve_right
      fun ⟨u, d, v, heq, _, _, hsome⟩ => by
        rw [hnone] at hsome
        exact h.thread.chain.addr_ne_zero d (by simp [heq]) (Option.some.inj hsome).symm
    rcases happ.chain.findFit_cases happ.head size with ⟨-, hall⟩ | ⟨u, d, v, heq, hfit, -, hsome⟩
    · exact absurd ⟨rfl, Nat.le_refl size⟩ (hall ⟨s.brk - (size + 40), size, true⟩ (by simp))
    · have hd : d ∈ l ++ [⟨s.brk - (size + 40), size, true⟩] := by simp [heq]
      rcases List.mem_append.mp hd with hd | hd
      · exact absurd hfit (hno d hd)
      · rw [hsome, List.mem_singleton.mp hd]
        rfl

/-- A block for an allocation of `size` bytes in the heap `s₁`: that of `s`, or with the block
that `heap_expand` appends, which is just as large. -/
structure Served (R : Region) (s : KHeap) (live : Finset Nat) (l : List Block) (size : Nat)
    (s₁ : KHeap) (u : List Block) (d : Block) (v : List Block) : Prop where
  whole : Whole R s₁ live (u ++ d :: v)
  source : l = u ++ d :: v ∨ u = l ∧ v = [] ∧ d.size = size
  fits : Fits size d
  cut : size + 48 ≤ d.size → Misses (u ++ v) (d.addr + 40 + size) 40
  copy : ∀ k, TidyCopy R s size k → Misses (u ++ d :: v) (d.addr + 40) k

/-- The block that `find_fit` returns. -/
theorem Served.found {u v : List Block} {d : Block} (h : Whole R s live (u ++ d :: v))
    (hfit : Fits size d) (hsome : findFit s.toHeap size = some d.addr) (ht : TidyAlloc R s size) :
    Served R s live (u ++ d :: v) size s u d v := by
  have hd0 := h.thread.chain.addr_ne_zero d (by simp)
  have hfitOf := fitOf_eq hsome
  refine ⟨h, .inl rfl, hfit, fun hroom c hc => ?_, fun k hcopy => ?_⟩
  · have hmiss := ht.1 (by rwa [hfitOf]) (by rwa [hfitOf, h.thread.chain.stored.size])
    rw [h.blocks_eq, hfitOf] at hmiss
    refine hmiss c ?_
    rcases List.mem_append.mp hc with hc | hc
    · simp [hc]
    · simp [hc]
  · have hmiss := hcopy.1 (by rwa [hfitOf])
    rwa [h.blocks_eq, hfitOf] at hmiss

/-- The block that `heap_expand` appends. -/
theorem Served.expanded {t : KHeap} (h : Whole R s live l) (hexp : Expands R s size)
    (ht : TidyAlloc R s size) (htail : t.tail = s.brk - (size + 40))
    (hwhole : Whole R t live (l ++ [⟨t.tail, size, true⟩])) :
    Served R s live l size t l ⟨t.tail, size, true⟩ [] := by
  obtain ⟨hroom, -⟩ := ht.2 hexp
  refine ⟨hwhole, .inr ⟨rfl, rfl, rfl⟩, ⟨rfl, Nat.le_refl _⟩, fun hcut => ?_,
    fun k hcopy c hc => ?_⟩
  · dsimp only at hcut
    omega
  · have hmiss := hcopy.2 hexp
    rw [h.blocks_eq] at hmiss
    rcases List.mem_append.mp hc with hc | hc
    · have := hmiss c hc
      dsimp only
      omega
    · rw [List.mem_singleton.mp hc]
      exact .inl (Nat.le_refl _)

theorem malloc_of_expansion {t : KHeap} {n a : Nat} (hn : n ≠ 0)
    (hnone : findFit s.toHeap (alignUp n) = some 0)
    (hgrown : heapExpand R s (alignUp n) = (t, true))
    (hsome : findFit t.toHeap (alignUp n) = some a) (ha : a ≠ 0) (hlt : a + 40 < 2 ^ 64) :
    malloc R s n = some (useBlock t a (alignUp n), a + 40) := by
  obtain ⟨k, hk⟩ : ∃ k, 2 ^ 64 = k + 1 + 1 := ⟨2 ^ 64 - 2, by omega⟩
  rw [malloc, if_neg hn, hk, mallocLoop, hnone]
  simp only [Option.bind_some, hgrown, ne_eq, not_true_eq_false, if_false, if_true]
  rw [mallocLoop_of_fit hsome ha, Option.map_some, if_neg ha, headerToPayload, wadd_eq hlt]

/-- `malloc` returns NULL and changes nothing, or takes such a block. -/
theorem malloc_served (h : Whole R s live l) {n : Nat} (hn : n ≠ 0)
    (ht : TidyAlloc R s (alignUp n)) :
    malloc R s n = some (s, 0) ∨
    ∃ s₁ u d v, Served R s live l (alignUp n) s₁ u d v ∧
      malloc R s n = some (useBlock s₁ d.addr (alignUp n), d.addr + 40) := by
  have hchain := h.thread.chain
  rcases hchain.findFit_cases h.thread.head (alignUp n) with
    ⟨hnone, -⟩ | ⟨u, d, v, rfl, hfit, -, hsome⟩
  · by_cases hexp : Expands R s (alignUp n)
    · obtain ⟨t, hgrown, htail, hwhole, hfind⟩ := expand_threaded h hexp (alignUp_mod n) ht
      have hd := hwhole.thread.chain.bounds (b := ⟨t.tail, alignUp n, true⟩) (by simp)
      have hd0 := hwhole.thread.chain.addr_ne_zero ⟨t.tail, alignUp n, true⟩ (by simp)
      dsimp only at hd hd0
      exact .inr ⟨t, l, _, [], Served.expanded h hexp ht htail hwhole,
        malloc_of_expansion (a := t.tail) hn hnone hgrown hfind hd0 (by omega)⟩
    · exact .inl (malloc_of_noFit hn hnone hexp)
  · have hd := hchain.bounds (b := d) (by simp)
    exact .inr ⟨s, u, d, v, Served.found h hfit hsome ht,
      malloc_of_fit hn hsome (hchain.addr_ne_zero d (by simp)) (by omega)⟩

/-- The block that was found is taken. -/
theorem Served.take {s₁ : KHeap} {u v : List Block} {d : Block}
    (h : Served R s live l size s₁ u d v) :
    Whole R (useBlock s₁ d.addr size) (insert (d.addr + 40) live)
      (u ++ (Malloc.cut { d with free := false } size ++ v)) := by
  have hd0 := h.whole.thread.chain.addr_ne_zero d (by simp)
  refine ⟨?_, ?_, h.whole.brk.of_eq rfl, h.whole.low⟩
  · rw [useBlock_eq hd0]
    exact h.whole.thread.take h.fits h.cut
  · rw [useBlock_eq hd0, takeBlock_head]
    exact h.whole.start

theorem Served.kept {s₁ : KHeap} {u v : List Block} {d : Block}
    (h : Served R s live l size s₁ u d v) (hb : b ∈ l) : b ∈ u ++ d :: v := by
  rcases h.source with rfl | ⟨rfl, -, -⟩
  · exact hb
  · simp [hb]

/-- A used block is not the one that is taken. -/
theorem Served.used {s₁ : KHeap} {u v : List Block} {d : Block}
    (h : Served R s live l size s₁ u d v) (hb : b ∈ l) (hused : b.free = false) :
    b ∈ u ∨ b ∈ v := by
  have hmem := h.kept hb
  simp only [List.mem_append, List.mem_cons] at hmem
  rcases hmem with hu | rfl | hv
  · exact .inl hu
  · exact absurd (hused.symm.trans h.fits.1) (by decide)
  · exact .inr hv

/-- A copy of `k` bytes into the block that was taken writes over no header. -/
theorem Served.misses {s₁ : KHeap} {u v : List Block} {d : Block} {k : Nat}
    (h : Served R s live l size s₁ u d v) (hcopy : TidyCopy R s size k) (hk : k ≤ size) :
    Misses (u ++ (Malloc.cut { d with free := false } size ++ v)) (d.addr + 40) k := by
  have hmiss := h.copy _ hcopy
  intro c hc
  rw [List.mem_append, List.mem_append] at hc
  rcases hc with hu | hc | hv
  · exact hmiss c (by simp [hu])
  · rcases addr_of_mem_cut hc with hsame | hrest
    · exact .inl (by rw [hsame])
    · exact .inr (by rw [hrest]; dsimp only; omega)
  · exact hmiss c (by simp [hv])

theorem malloc_whole (h : Whole R s live l) {n : Nat} (ht : n = 0 ∨ TidyAlloc R s (alignUp n)) :
    ∃ s' q l', malloc R s n = some (s', q) ∧
      Whole R s' (if q = 0 then live else insert q live) l' := by
  by_cases hn : n = 0
  · exact ⟨s, 0, l, by rw [malloc, if_pos hn], h⟩
  rcases malloc_served h hn (ht.resolve_left hn) with hnull | ⟨s₁, u, d, v, hserved, hret⟩
  · exact ⟨s, 0, l, hnull, h⟩
  · refine ⟨_, _, u ++ (Malloc.cut { d with free := false } (alignUp n) ++ v), hret, ?_⟩
    rw [if_neg (by omega)]
    exact hserved.take

/-! ## Reallocation -/

/-- The list is cut at the block with the address `h`. -/
theorem blocks_split (h : Chain kernelMagic R e s.mem (l ++ b :: r))
    (hlist : blocks s = l ++ b :: r) :
    (blocks s).takeWhile (fun c => c.addr ≠ b.addr) = l ∧
      ((blocks s).dropWhile fun c => c.addr ≠ b.addr).tail = r := by
  have hne : ∀ c ∈ l, decide (c.addr ≠ b.addr) = true := by
    intro c hc
    have := h.spread.header (.inl hc)
    exact decide_eq_true (by omega)
  rw [hlist, List.takeWhile_append_of_pos hne, List.dropWhile_append_of_pos hne]
  simp

theorem growInPlace_whole (h : Whole R s live (l ++ b :: r)) (hused : b.free = false) {new : Nat}
    (hbig : b.size < new) (hroom : new ≤ (runEnd new b.size r).1) (ht : TidyGrow s b.addr new) :
    ∃ s' l', growInPlace s b.addr new = some s' ∧ Whole R s' live l' ∧
      Resized l b r new (b.addr + 40) l' := by
  have hchain := h.thread.chain
  obtain ⟨hbefore, hbehind⟩ := blocks_split hchain h.blocks_eq
  unfold TidyGrow at ht
  rw [hbefore, hbehind, hchain.stored.size] at ht
  obtain ⟨hleft, hmiss⟩ := ht
  obtain ⟨w, heq, hfree, hsum⟩ := runEnd_split new b.size r
  have hthread := h.thread
  rw [heq] at hthread
  have hmerge := hthread.merge hfree hsum hleft
  have htake := hmerge.retake hused hroom fun hcut => hmiss hcut
  refine ⟨_, _, growInPlace_eq hchain hbig hroom, ⟨htake, ?_, h.brk, h.low⟩,
    .grow hbig heq hfree hsum hroom⟩
  rw [takeBlock_head]
  exact h.start

/-- The list after a move, once the block is taken. -/
theorem Served.resized {s₁ : KHeap} {u v u₂ v₂ : List Block} {d : Block}
    (h : Served R s live (l ++ b :: r) size s₁ u d v) (hbig : b.size < size)
    (hne : d.addr ≠ b.addr)
    (hsplit : u ++ (Malloc.cut { d with free := false } size ++ v) = u₂ ++ b :: v₂) :
    Resized l b r size (d.addr + 40) (release u₂ b v₂) := by
  rcases h.source with hlist | ⟨rfl, rfl, hsize⟩
  · exact .move hbig hlist h.fits hne hsplit
  · have hcut : Malloc.cut { d with free := false } size = [⟨d.addr, size, false⟩] := by
      rw [Malloc.cut, if_pos (by dsimp only; omega), ← hsize]
    rw [hcut, List.append_nil] at hsplit
    exact .fresh hbig hne hsplit

theorem moveBlock_whole (h : Whole R s live (l ++ b :: r)) (hused : b.free = false) {new : Nat}
    (hbig : b.size < new) (halign : alignUp new = new) (ht : TidyAlloc R s new)
    (hcopy : TidyCopy R s new b.size) :
    ∃ s' q l', moveBlock R s (b.addr + 40) new = some (s', q) ∧ q ≠ b.addr + 40 ∧
      Whole R s' (if q = 0 then live else insert q (live.erase (b.addr + 40))) l' ∧
      Resized l b r new q l' := by
  unfold moveBlock
  rw [h.thread.chain.payloadToHeader_eq]
  have hserved := malloc_served h (n := new) (by omega) (by rwa [halign])
  rw [halign] at hserved
  rcases hserved with hnull | ⟨s₁, u, d, v, hserved, hret⟩
  · exact ⟨s, 0, _, by rw [hnull]; rfl, by omega, h, .fail hbig⟩
  have htake := hserved.take
  have hbd := hserved.used (by simp) hused
  have hne := hserved.whole.thread.chain.spread.header hbd
  have hmiss := hserved.misses hcopy (Nat.le_of_lt hbig)
  obtain ⟨u₂, v₂, hsplit⟩ := List.append_of_mem
    (show b ∈ u ++ (Malloc.cut { d with free := false } new ++ v) by
      rcases hbd with hu | hv
      · simp [hu]
      · simp [hv])
  rw [hsplit] at htake hmiss
  have hsize := htake.thread.chain.stored.size
  have hcopied : Whole R { useBlock s₁ d.addr new with
      mem := memcpy (useBlock s₁ d.addr new).mem (d.addr + 40) (b.addr + 40) b.size } _ _ :=
    htake.write hmiss fun x hx => memcpy_of_outside hx
  have hfree := hcopied.free hused
  rw [Finset.erase_insert_of_ne (by omega)] at hfree
  refine ⟨free { useBlock s₁ d.addr new with
      mem := memcpy (useBlock s₁ d.addr new).mem (d.addr + 40) (b.addr + 40) b.size }
    (b.addr + 40), d.addr + 40, release u₂ b v₂, ?_, by omega, ?_,
    hserved.resized hbig (by omega) hsplit⟩
  · rw [hret, Option.map_some, if_neg (by omega)]
    dsimp only
    rw [hsize, if_pos hbig]
  · rw [if_neg (by omega)]
    exact hfree

/-- What `realloc` does with a block. -/
theorem resize_whole (h : Whole R s live (l ++ b :: r)) (hused : b.free = false) {n : Nat}
    (hn : n ≠ 0) (ht : TidyResize R s b.addr (alignUp n)) :
    ∃ s' q l', realloc R s (b.addr + 40) n = some (s', q) ∧
      Whole R s' (liveAfterRealloc live (b.addr + 40) n q) l' ∧
      Resized l b r (alignUp n) q l' := by
  have hchain := h.thread.chain
  have hb0 := hchain.addr_ne_zero b (by simp)
  have hlive : b.addr + 40 ∈ live :=
    (h.thread.live _).mpr (mem_payloads.mpr ⟨b, by simp, hused, rfl⟩)
  have hsame := liveAfterRealloc_same (n := n) hlive (by omega)
  unfold realloc
  unfold TidyResize at ht
  rw [hchain.stored.size] at ht
  rw [if_neg (by omega), if_neg hn, hchain.payloadToHeader_eq]
  simp only [hchain.stored.magic, hchain.stored.size, ne_eq, not_true_eq_false, if_false]
  by_cases hshrink : alignUp n ≤ b.size
  · rw [if_pos hshrink] at ht ⊢
    have hsplit := h.thread.split hshrink fun hroom c hc => by
      have hmiss := ht hroom
      rw [h.blocks_eq] at hmiss
      exact hmiss c (by simp only [List.mem_append, List.mem_cons] at hc ⊢; tauto)
    refine ⟨_, _, l ++ (Malloc.cut b (alignUp n) ++ r), rfl, ?_⟩
    rw [splitBlock, if_neg hb0, hsame]
    refine ⟨⟨hsplit, ?_, h.brk, h.low⟩, .shrink hshrink⟩
    rw [splitBlock_head]
    exact h.start
  have hbig : b.size < alignUp n := Nat.lt_of_not_le hshrink
  rw [if_neg hshrink] at ht ⊢
  rw [hasRoom_eq hchain hbig] at ht ⊢
  rw [Option.bind_some]
  by_cases hroom : alignUp n ≤ (runEnd (alignUp n) b.size r).1
  · rw [if_pos (congrArg some (decide_eq_true hroom))] at ht
    obtain ⟨s', l', hgrow, hwhole, hresized⟩ := growInPlace_whole h hused hbig hroom ht
    rw [if_pos (decide_eq_true hroom), hgrow]
    refine ⟨s', b.addr + 40, l', rfl, ?_, hresized⟩
    rwa [hsame]
  · rw [if_neg (by simpa using hroom)] at ht
    obtain ⟨s', q, l', hmove, hne, hwhole, hresized⟩ :=
      moveBlock_whole h hused hbig (alignUp_alignUp n) ht.1 ht.2
    rw [if_neg (by simpa using hroom)]
    refine ⟨s', q, l', hmove, ?_, hresized⟩
    by_cases hq : q = 0
    · rw [hq, liveAfterRealloc_failed hn]
      rwa [if_pos hq] at hwhole
    · rw [liveAfterRealloc_moved hq]
      rwa [if_neg hq] at hwhole

/-- What `Tidy` says of the block of a live pointer. -/
theorem Tidy.resize {n : Nat} (ht : Tidy R c (.realloc (b.addr + 40) n))
    (h : Whole R c.heap c.live (l ++ b :: r)) (hn : n ≠ 0) :
    TidyResize R c.heap b.addr (alignUp n) := by
  rcases ht with hzero | hnull | hresize
  · exact absurd hzero hn
  · exact absurd hnull.1 (by omega)
  · have ht := hresize.2
    rwa [h.thread.chain.payloadToHeader_eq] at ht

theorem realloc_whole (h : Whole R c.heap c.live l) {p n : Nat} (hp : p = 0 ∨ p ∈ c.live)
    (ht : Tidy R c (.realloc p n)) :
    ∃ s' q l', realloc R c.heap p n = some (s', q) ∧
      Whole R s' (liveAfterRealloc c.live p n q) l' := by
  rcases hp with rfl | hlive
  · simp only [liveAfterRealloc_null h.thread.zero_notMem]
    refine malloc_whole h (Or.imp_right (fun ht => ?_) ht)
    rcases ht with ht | ht
    · exact ht.2
    · exact absurd rfl ht.1
  have hp0 : p ≠ 0 := fun hz => h.thread.zero_notMem (hz ▸ hlive)
  obtain ⟨u, b, v, rfl, hused, rfl⟩ := h.thread.block hlive
  by_cases hn : n = 0
  · subst hn
    exact ⟨free c.heap (b.addr + 40), 0, release u b v, by rw [realloc, if_neg hp0, if_pos rfl],
      h.free hused⟩
  · obtain ⟨s', q, l', hret, hwhole, -⟩ := resize_whole h hused hn (ht.resize h hn)
    exact ⟨s', q, l', hret, hwhole⟩

/-! ## Runs -/

theorem tidy_step (h : Whole R c.heap c.live l) {o : Op} (ho : (kernel R).Permitted c o)
    (ht : Tidy R c o) :
    ∃ c' l', (kernel R).step c o = some c' ∧ Whole R c'.heap c'.live l' := by
  cases o with
  | malloc n =>
    obtain ⟨s', q, l', hret, hl'⟩ := malloc_whole h ht
    exact ⟨⟨s', if q = 0 then c.live else insert q c.live⟩, l',
      by simp [Allocator.step, kernel, hret], hl'⟩
  | free p =>
    rcases ho with rfl | hlive
    · refine ⟨_, l, rfl, ?_⟩
      dsimp only
      rw [Finset.erase_eq_of_notMem h.thread.zero_notMem]
      exact h
    · obtain ⟨u, b, v, rfl, hused, rfl⟩ := h.thread.block hlive
      exact ⟨_, _, rfl, h.free hused⟩
  | realloc p n =>
    obtain ⟨s', q, l', hret, hl'⟩ := realloc_whole h ho.1 ht
    exact ⟨⟨s', liveAfterRealloc c.live p n q⟩, l', by simp [Allocator.step, kernel, hret], hl'⟩
  | write p off bs =>
    have hmiss : Misses (blocks c.heap) (p + off) bs.length := ht
    rw [h.blocks_eq] at hmiss
    exact ⟨_, l, rfl, h.write hmiss fun x hx => store_of_outside hx⟩

theorem kernelStart_whole (hR : R.hi ≤ 2 ^ 63) (m : Mem) :
    Whole R (kernelStart R m).heap (kernelStart R m).live [⟨R.lo, R.hi - R.lo - 40, true⟩] := by
  have h := kernelStart_holds R m
  have hbrk := kernelStart_brk R m
  have h1 := R.lo_ge
  have h2 := R.room
  have hhi : 2 * R.hi - (kernelStart R m).heap.brk = R.hi := by omega
  refine ⟨⟨?_, h.head, ?_, h.live⟩, by rw [h.head]; omega, ?_, hR⟩
  · rw [hhi]
    exact h.layout.chain
  · unfold kernelStart mallocInit
    rw [if_neg (by omega)]
    rfl
  · rw [BrkInside, hbrk]
    omega

/-! ## The calls of `heap_expand` -/

/-- The states in which an operation calls `heap_expand`. -/
def expansions (R : Region) (c : Client KHeap) : Op → List KHeap
  | .malloc n => mallocCalls R c.heap n
  | .realloc p n => reallocCalls R c.heap p n
  | .free _ => []
  | .write _ _ _ => []

/-- The bytes it asks for. -/
def requested : Op → Nat
  | .malloc n => alignUp n
  | .realloc _ n => alignUp n
  | .free _ => 0
  | .write _ _ _ => 0

/-- The block that a successful call in the state `t` appends is reached from `heap_head`, behind
the blocks `l`, and `find_fit` returns it. -/
def Appends (R : Region) (l : List Block) (t : KHeap) (size : Nat) : Prop :=
  ∀ t', heapExpand R t size = (t', true) →
    blockList t'.toHeap = some (l ++ [⟨t'.tail, size, true⟩]) ∧
      findFit t'.toHeap size = some t'.tail ∧ t'.tail ≠ 0

theorem mallocCalls_once (h : Whole R s live l) {n : Nat} (ht : TidyAlloc R s (alignUp n)) :
    (mallocCalls R s n).length ≤ 1 ∧ ∀ t ∈ mallocCalls R s n, Appends R l t (alignUp n) := by
  by_cases hn : n = 0
  · rw [mallocCalls, if_pos hn]
    exact ⟨Nat.zero_le 1, by simp⟩
  obtain ⟨k, hk⟩ : ∃ k, 2 ^ 64 = k + 1 + 1 := ⟨2 ^ 64 - 2, by omega⟩
  rw [mallocCalls, if_neg hn, hk, expandCalls]
  by_cases hnone : findFit s.toHeap (alignUp n) = some 0
  · rw [if_pos hnone]
    by_cases hexp : Expands R s (alignUp n)
    · obtain ⟨t, hgrown, -, hwhole, hfind⟩ := expand_threaded h hexp (alignUp_mod n) ht
      have htail := hwhole.thread.chain.addr_ne_zero ⟨t.tail, alignUp n, true⟩ (by simp)
      have hlist := hwhole.thread.chain.blockList_eq hwhole.thread.head
      rw [hgrown, if_pos rfl, expandCalls, hfind,
        if_neg fun hzero => htail (Option.some.inj hzero)]
      refine ⟨Nat.le_refl 1, fun t' ht' t'' hret => ?_⟩
      rw [List.mem_singleton.mp ht', hgrown, Prod.mk.injEq] at hret
      rw [← hret.1]
      exact ⟨hlist, hfind, htail⟩
    · have hret := heapExpand_refused hnone hexp
      rw [hret, if_neg Bool.false_ne_true]
      refine ⟨Nat.le_refl 1, fun t' ht' t'' hret' => ?_⟩
      rw [List.mem_singleton.mp ht', hret, Prod.mk.injEq] at hret'
      exact absurd hret'.2 Bool.false_ne_true
  · rw [if_neg hnone]
    exact ⟨Nat.zero_le 1, by simp⟩

theorem reallocCalls_once (h : Whole R s live l) {p n : Nat} (hp : p ≠ 0)
    (ht : TidyResize R s (payloadToHeader p) (alignUp n)) :
    (reallocCalls R s p n).length ≤ 1 ∧
      ∀ t ∈ reallocCalls R s p n, Appends R l t (alignUp n) := by
  have hnil : ([] : List KHeap).length ≤ 1 ∧ ∀ t ∈ ([] : List KHeap), Appends R l t (alignUp n) :=
    ⟨Nat.zero_le 1, by simp⟩
  have hcases : reallocCalls R s p n = [] ∨
      (reallocCalls R s p n = mallocCalls R s (alignUp n) ∧
        ¬ alignUp n ≤ get s.mem (payloadToHeader p) .size ∧
        hasRoom s.mem (payloadToHeader p) (alignUp n) = some false) := by
    simp only [reallocCalls, if_neg hp]
    grind
  rcases hcases with hnone | ⟨hcalls, hbig, hroom⟩
  · rwa [hnone]
  · rw [TidyResize, if_neg hbig, if_neg (by simp [hroom])] at ht
    have honce := mallocCalls_once (n := alignUp n) h (by rw [alignUp_alignUp]; exact ht.1)
    rwa [alignUp_alignUp, ← hcalls] at honce

theorem expansions_once (h : Whole R c.heap c.live l) {o : Op} (ht : Tidy R c o) :
    (expansions R c o).length ≤ 1 ∧ ∀ t ∈ expansions R c o, Appends R l t (requested o) := by
  have hnil : ([] : List KHeap).length ≤ 1 ∧ ∀ t ∈ ([] : List KHeap), Appends R l t (requested o) :=
    ⟨Nat.zero_le 1, by simp⟩
  cases o with
  | malloc n =>
    rcases ht with hn | ht
    · rwa [expansions, mallocCalls, if_pos hn]
    · exact mallocCalls_once h ht
  | free p => exact hnil
  | realloc p n =>
    by_cases hn : n = 0
    · have hcalls : reallocCalls R c.heap p n = [] := by
        simp [reallocCalls, mallocCalls, hn]
      rwa [expansions, hcalls]
    · rcases ht with hzero | ⟨rfl, ht⟩ | ⟨hp, ht⟩
      · exact absurd hzero hn
      · exact mallocCalls_once h ht
      · exact reallocCalls_once h hp ht
  | write p off bs => exact hnil

theorem tidy_run (hR : R.hi ≤ 2 ^ 63) {m : Mem} {os : List Op}
    (hr : Run (kernel R).step (fun c o => (kernel R).Permitted c o ∧ Tidy R c o)
      (kernelStart R m) os c) : ∃ l, Whole R c.heap c.live l := by
  refine hr.keeps (I := fun c => ∃ l, Whole R c.heap c.live l) ?_ ⟨_, kernelStart_whole hR m⟩
  rintro c o ⟨l, hl⟩ ho
  obtain ⟨c', l', hc', hl'⟩ := tidy_step hl ho.1 ho.2
  exact ⟨c', hc', l', hl'⟩

/-! ## Before the first expansion -/

/-- A reallocation that grows a block over the last one of the list. -/
def GrowsOverLast (c : Client KHeap) : Op → Prop
  | .realloc p n => n ≠ 0 ∧ p ≠ 0 ∧ blockSize c.heap.mem p < alignUp n ∧
      hasRoom c.heap.mem (payloadToHeader p) (alignUp n) = some true ∧
      (runEnd (alignUp n) (blockSize c.heap.mem p)
        ((blocks c.heap).dropWhile fun d => d.addr ≠ payloadToHeader p).tail).2 = []
  | _ => False

/-- The bytes of a payload of a tiling cover no header. -/
theorem misses_payload {m : Mem} (h : Layout kernelMagic R m (l ++ b :: r)) {a k : Nat}
    (ha : b.addr + 40 ≤ a) (hk : a + k ≤ b.addr + 40 + b.size) : Misses (l ++ b :: r) a k := by
  intro c hc
  by_cases hcb : c = b
  · subst hcb
    exact .inl ha
  · have := h.tiles.apart hc (by simp) hcb
    omega

theorem tidyAlloc_of_holds (h : Holds kernelMagic R s.toHeap live l) (hno : ¬ Expands R s size)
    (hlist : blocks s = l) {k : Nat} (hk : k ≤ size) :
    TidyAlloc R s size ∧ TidyCopy R s size k := by
  rcases findFit_cases h.layout h.head size with ⟨hnone, -⟩ | ⟨u, d, v, rfl, hfit, -, hsome⟩
  · have hfit := fitOf_eq hnone
    exact ⟨⟨fun hd => absurd hfit hd, fun he => absurd he hno⟩,
      fun hd => absurd hfit hd, fun he => absurd he hno⟩
  · have hfitOf := fitOf_eq hsome
    have hle := hfit.2
    unfold TidyAlloc TidyCopy
    rw [hfitOf, hlist, h.layout.stored.size]
    refine ⟨⟨fun _ hroom => ?_, fun he => absurd he hno⟩, fun _ => ?_, fun he => absurd he hno⟩
    · exact misses_payload h.layout (by omega) (by omega)
    · exact misses_payload h.layout (by omega) (by omega)

theorem tidyResize_of_holds (h : Holds kernelMagic R s.toHeap live (l ++ b :: r))
    (hlist : blocks s = l ++ b :: r) {new : Nat}
    (hlast : b.size < new → new ≤ (runEnd new b.size r).1 → (runEnd new b.size r).2 ≠ [])
    (hno : b.size < new → (runEnd new b.size r).1 < new → ¬ Expands R s new) :
    TidyResize R s b.addr new := by
  rw [TidyResize, h.layout.stored.size]
  by_cases hle : new ≤ b.size
  · rw [if_pos hle]
    intro hroom
    rw [hlist]
    exact misses_payload h.layout (by omega) (by omega)
  have hbig := Nat.lt_of_not_le hle
  rw [if_neg hle, hasRoom_eq h.layout.chain hbig]
  by_cases hroom : new ≤ (runEnd new b.size r).1
  · rw [if_pos (congrArg some (decide_eq_true hroom))]
    obtain ⟨hbefore, hbehind⟩ := blocks_split h.layout.chain hlist
    unfold TidyGrow
    rw [hbefore, hbehind, h.layout.stored.size]
    obtain ⟨w, heq, -, hsum⟩ := runEnd_split new b.size r
    have hlayout := h.layout
    rw [heq] at hlayout
    exact ⟨hlast hbig hroom, fun hcut => (merge_spec hlayout hsum).misses hcut⟩
  · rw [if_neg (by simpa using hroom)]
    exact tidyAlloc_of_holds h (hno hbig (Nat.lt_of_not_le hroom)) hlist (Nat.le_of_lt hbig)

/-- As long as the blocks tile the region, every operation that needs no expansion is tidy, unless
it grows a block over the last one. -/
theorem tidy_of_noExpand (h : Holds kernelMagic R c.heap.toHeap c.live l) {o : Op}
    (ho : (kernel R).Permitted c o) (hno : NoExpand R c o) (hlast : ¬ GrowsOverLast c o) :
    Tidy R c o := by
  have hlist : blocks c.heap = l := by
    unfold blocks
    rw [blockList_eq h.layout h.head]
    rfl
  cases o with
  | malloc n => exact hno.imp_right fun hno => (tidyAlloc_of_holds h hno hlist (Nat.le_refl _)).1
  | free p => trivial
  | write p off bs =>
    obtain ⟨hp, hoff⟩ := ho
    obtain ⟨u, b, v, rfl, -, rfl⟩ := h.block hp
    have hsize : off + bs.length ≤ b.size := by
      rw [← h.blockSize_eq]
      exact hoff
    unfold Tidy
    rw [hlist]
    exact misses_payload h.layout (by omega) (by omega)
  | realloc p n =>
    by_cases hn : n = 0
    · exact .inl hn
    rcases ho.1 with rfl | hlive
    · rcases hno with hz | hno | hno
      · exact absurd hz hn
      · exact .inr (.inl ⟨rfl, (tidyAlloc_of_holds h hno hlist (Nat.le_refl _)).1⟩)
      · exact absurd rfl hno.1
    have hp0 : p ≠ 0 := fun hz => h.zero_notMem (hz ▸ hlive)
    obtain ⟨u, b, v, rfl, -, rfl⟩ := h.block hlive
    rw [GrowsOverLast, h.blockSize_eq, payloadToHeader_eq h.layout,
      (blocks_split h.layout.chain hlist).2] at hlast
    rw [NoExpand, h.blockSize_eq, payloadToHeader_eq h.layout] at hno
    rw [Tidy, payloadToHeader_eq h.layout]
    refine .inr (.inr ⟨hp0, tidyResize_of_holds h hlist ?_ ?_⟩)
    · intro hbig hroom hnil
      rw [hasRoom_eq h.layout.chain hbig] at hlast
      exact hlast ⟨hn, hp0, hbig, congrArg some (decide_eq_true hroom), hnil⟩
    · intro hbig hroom
      rw [hasRoom_eq h.layout.chain hbig] at hno
      rcases hno with hz | hexp | ⟨-, hle | htrue⟩
      · exact absurd hz hn
      · exact hexp
      · omega
      · exact absurd (of_decide_eq_true (Option.some.inj htrue)) (Nat.not_le_of_lt hroom)

/-- In every state that tidy operations reach, `heap_tail` is the last block of the list; and the
next one calls `heap_expand` at most once and finds the block that it appends. -/
theorem tail_is_last (R : Region) (hR : R.hi ≤ 2 ^ 63) (m : Mem) {os : List Op}
    {c : Client KHeap}
    (hr : Run (kernel R).step (fun c o => (kernel R).Permitted c o ∧ Tidy R c o)
      (kernelStart R m) os c) :
    ∃ l t, blockList c.heap.toHeap = some (l ++ [t]) ∧ c.heap.tail = t.addr ∧
      ∀ o, Tidy R c o → (expansions R c o).length ≤ 1 ∧
        ∀ s ∈ expansions R c o, Appends R (l ++ [t]) s (requested o) := by
  obtain ⟨k, hk⟩ := tidy_run hR hr
  have hlist := hk.thread.chain.blockList_eq hk.thread.head
  have htail : c.heap.tail = last 0 k := hk.thread.tail
  have hhead : c.heap.head = first k 0 := hk.thread.head
  cases k using List.reverseRecOn with
  | nil => exact absurd hhead hk.start
  | append_singleton l t =>
    rw [last_append] at htail
    exact ⟨l, t, hlist, htail, fun o ho => expansions_once hk ho⟩

/-- Two blocks take the whole region. -/
def fullHeap : List Op := [.malloc 8, .malloc 0x7ffffa8]

/-- A block takes the whole region, and two more are put into it from the top. -/
theorem tail_is_last_expanded :
    ∃ c, Run (kernel region128).step (fun c o => (kernel region128).Permitted c o ∧
        Tidy region128 c o) (kernelStart region128 fun _ => 0)
        [.malloc 0x7ffffd8, .malloc 64, .malloc 8] c ∧
      (expansions region128 c (.malloc 8)).length = 1 ∧
      ∃ l t, blockList c.heap.toHeap = some (l ++ [t]) ∧ c.heap.tail = t.addr ∧
        ∀ s ∈ expansions region128 c (.malloc 8), Appends region128 (l ++ [t]) s 8 := by
  have hexec : (exec (kernel region128).step (fun c o => (kernel region128).Permitted c o ∧
      Tidy region128 c o) (kernelStart region128 fun _ => 0)
      [.malloc 0x7ffffd8, .malloc 64, .malloc 8]).map
        (fun c : Client KHeap => ((expansions region128 c (.malloc 8)).length,
          decide (Tidy region128 c (.malloc 8)))) = some (1, true) := by
    decide +kernel
  obtain ⟨c, hc, heq⟩ := Option.map_eq_some_iff.mp hexec
  rw [Prod.mk.injEq, decide_eq_true_eq] at heq
  obtain ⟨l, t, hlist, htail, hnext⟩ :=
    tail_is_last region128 (by decide) (fun _ => 0) (Run.of_exec hc)
  exact ⟨c, Run.of_exec hc, heq.1, l, t, hlist, htail, (hnext _ heq.2).2⟩

/-- As in `debug_run_tests`: a block of 2 MiB grows to 3 MiB over the free rest of the region,
and `heap_tail` is left behind. When the new rest is used up, the next `heap_expand` succeeds, but
`find_fit` does not find its block. -/
theorem grown_over_last :
    ∃ c, Run (kernel region128).step (kernel region128).Permitted (kernelStart region128 fun _ => 0)
        [.malloc 0x200000, .realloc 0x200028 0x300000, .malloc 0x7cfffb0] c ∧
      blockList c.heap.toHeap =
        some [⟨0x200000, 0x300000, false⟩, ⟨0x500028, 0x7cfffb0, false⟩] ∧
      c.heap.tail = 0x400028 ∧ findFit c.heap.toHeap (alignUp 8) = some 0 ∧
      (heapExpand region128 c.heap (alignUp 8)).2 = true ∧
      findFit (heapExpand region128 c.heap (alignUp 8)).1.toHeap (alignUp 8) = some 0 := by
  have hexec : (exec (kernel region128).step (kernel region128).Permitted
      (kernelStart region128 fun _ => 0)
      [.malloc 0x200000, .realloc 0x200028 0x300000, .malloc 0x7cfffb0]).map
        (fun c => (blockList c.heap.toHeap, c.heap.tail, findFit c.heap.toHeap (alignUp 8),
          (heapExpand region128 c.heap (alignUp 8)).2,
          findFit (heapExpand region128 c.heap (alignUp 8)).1.toHeap (alignUp 8))) =
      some (some [⟨0x200000, 0x300000, false⟩, ⟨0x500028, 0x7cfffb0, false⟩], 0x400028, some 0,
        true, some 0) := by
    decide +kernel
  obtain ⟨c, hc, heq⟩ := Option.map_eq_some_iff.mp hexec
  simp only [Prod.mk.injEq] at heq
  exact ⟨c, Run.of_exec hc, heq⟩

end KernelC.Malloc.Kernel
