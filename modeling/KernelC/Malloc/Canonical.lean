import KernelC.Lib.Gaps
import KernelC.Malloc.User
import Mathlib.Logic.Relation

/-!
# The canonical form of the user heap

With `user_malloc` and `user_free` alone no two free blocks are ever neighbours:
taking a block leaves the rest of it in front of a used one, and `coalesce`
joins a freed block with both its neighbours. So the block list is coalesced
(`coalesced_cut`, `coalesced_release`) and is determined by the live blocks.

Result: `user_heap_canonical`.
-/

namespace KernelC.Malloc

open Block

variable {magic : Nat} {R : Region} {m : Mem} {s : Heap} {live : Finset Nat}
  {l r : List Block} {b : Block} {c : Client Heap}

/-! ## The block list that a walk reads -/

def blockListLoop (m : Mem) : Nat → Nat → Option (List Block)
  | 0, _ => none
  | k + 1, cur =>
    if cur = 0 then some []
    else
      (blockListLoop m k (get m cur .next)).map
        (⟨cur, get m cur .size, get m cur .free ≠ 0⟩ :: ·)

/-- The blocks from the head along `next`. -/
def blockList (s : Heap) : Option (List Block) := blockListLoop s.mem (2 ^ 64) s.head

theorem blockListLoop_eq {p k : Nat} (h : Linked (Stored magic m) p l 0)
    (hpos : ∀ b ∈ l, b.addr ≠ 0) (hk : l.length < k) :
    blockListLoop m k (first l 0) = some l := by
  induction l generalizing p k with
  | nil =>
    obtain ⟨k, rfl⟩ : ∃ i, k = i + 1 := ⟨k - 1, by simp only [List.length_nil] at hk; omega⟩
    rfl
  | cons b l ih =>
    rw [List.length_cons] at hk
    obtain ⟨k, rfl⟩ : ∃ i, k = i + 1 := ⟨k - 1, by omega⟩
    obtain ⟨hb, hl⟩ := h
    have hrest := ih (k := k) hl (fun c hc => hpos c (List.mem_cons_of_mem _ hc)) (by omega)
    rw [first_cons, blockListLoop, if_neg (hpos b List.mem_cons_self), hb.size, hb.next, hrest]
    simp only [hb.free_ne_zero, Bool.decide_eq_true, Option.map_some]

theorem Chain.blockList_eq {e : Nat} (h : Chain magic R e s.mem l) (hhead : s.head = first l 0) :
    blockList s = some l := by
  unfold blockList
  rw [hhead]
  exact blockListLoop_eq h.linked h.addr_ne_zero h.length_lt

theorem blockList_eq (h : Layout magic R s.mem l) (hhead : s.head = R.lo) :
    blockList s = some l :=
  h.chain.blockList_eq (hhead.trans h.head_eq.symm)

/-! ## The edits keep the list coalesced -/

/-- The used part of a free block is in front; the rest stays free where the
block was. -/
theorem coalesced_cut (h : Coalesced (l ++ b :: r)) (hb : b.free = true) (size : Nat) :
    Coalesced (l ++ (Malloc.cut { b with free := false } size ++ r)) := by
  obtain ⟨hl, hr⟩ := coalesced_split.mp h
  have hleft : Coalesced l := hl.left_of_append
  unfold Malloc.cut
  split
  · exact (coalesced_used rfl).mpr ⟨hleft, hr.tail⟩
  · exact (coalesced_used rfl).mpr ⟨hleft, hr.congr (by simp [hb])⟩

theorem coalesced_joinNext (h : Coalesced r) (hb : b.free = true) :
    Coalesced (Malloc.joinNext b r) := by
  cases r with
  | nil => exact List.isChain_singleton _
  | cons n r =>
    simp only [Malloc.joinNext]
    split
    · next hn => exact h.congr (by simp [hb, hn])
    · next hn => exact List.isChain_cons_cons.mpr ⟨fun hboth => hn hboth.2, h⟩

theorem coalesced_joinPrev (hl : Coalesced l) (hr : Coalesced (b :: r)) (hb : b.free = true) :
    Coalesced (Malloc.joinPrev l (b :: r)) := by
  cases l using List.reverseRecOn with
  | nil => exact hr
  | append_singleton l p =>
    unfold Malloc.joinPrev
    simp only [List.getLast?_concat, List.dropLast_concat]
    split
    · next hp =>
      exact coalesced_split.mpr ⟨hl.congr (by simp), hr.congr (by simp [hb, hp])⟩
    · next hp =>
      rw [List.append_assoc]
      exact (coalesced_used (by simpa using hp)).mpr ⟨hl.left_of_append, hr⟩

/-- A freed block joins its free neighbours on both sides. -/
theorem coalesced_release (h : Coalesced (l ++ b :: r)) (hb : b.free = false) :
    Coalesced (Malloc.release l b r) := by
  obtain ⟨hl, hr⟩ := (coalesced_used hb).mp h
  have hnext := coalesced_joinNext (b := { b with free := true }) hr rfl
  obtain ⟨c, t, heq, -, hfree⟩ := joinNext_cons { b with free := true } r
  unfold Malloc.release
  rw [heq] at hnext ⊢
  exact coalesced_joinPrev hl hnext hfree

/-! ## Runs of `user_malloc` and `user_free` -/

/-- The heap has the coalesced block list `l`. -/
structure Canonical (R : Region) (s : Heap) (live : Finset Nat) (l : List Block) : Prop extends
    Holds userMagic R s live l where
  coalesced : Coalesced l

/-- The used blocks are the live pointers with their sizes. -/
theorem Holds.mem_iff (h : Holds magic R s live l) (hb : b.free = false) :
    b ∈ l ↔ b.addr + 40 ∈ live ∧ blockSize s.mem (b.addr + 40) = b.size := by
  constructor
  · intro hmem
    obtain ⟨u, v, rfl⟩ := List.append_of_mem hmem
    exact ⟨(h.live _).mpr (mem_payloads.mpr ⟨b, by simp, hb, rfl⟩), h.blockSize_eq⟩
  · rintro ⟨hlive, hsize⟩
    obtain ⟨u, c, v, rfl, hused, haddr⟩ := h.block hlive
    obtain rfl : b = c := by
      have haddr' : b.addr = c.addr := by omega
      rw [haddr', h.blockSize_eq] at hsize
      cases b
      cases c
      simp only [Block.mk.injEq] at *
      exact ⟨haddr', hsize.symm, hb.trans hused.symm⟩
    simp

/-- Two canonical heaps with the same used blocks have the same list. -/
theorem Canonical.unique {s' : Heap} {live' : Finset Nat} (h : Canonical R s live l)
    (h' : Canonical R s' live' r) (hused : ∀ b, b ∈ used l ↔ b ∈ used r) : l = r := by
  refine h.coalesced.unique h.layout.tiles h'.coalesced h'.layout.tiles (by decide) fun b hb => ?_
  have hiff := hused b
  rwa [mem_used, mem_used, and_iff_left hb, and_iff_left hb] at hiff

theorem Canonical.take (h : Canonical R s live (l ++ b :: r)) {size : Nat} (hfit : Fits size b) :
    Canonical R (takeBlock userMagic s b.addr size).1 (insert (b.addr + 40) live)
      (l ++ (cut { b with free := false } size ++ r)) :=
  ⟨h.toHolds.take hfit, coalesced_cut h.coalesced hfit.1 size⟩

theorem Canonical.free (h : Canonical R s live (l ++ b :: r)) (hb : b.free = false) :
    Canonical R (userFree s (b.addr + 40)) (live.erase (b.addr + 40)) (release l b r) :=
  ⟨h.toHolds.free hb, coalesced_release h.coalesced hb⟩

theorem Canonical.free_live {p : Nat} (h : Canonical R s live l) (hp : p ∈ live) :
    ∃ l', Canonical R (userFree s p) (live.erase p) l' := by
  obtain ⟨u, b, v, rfl, hb, rfl⟩ := h.toHolds.block hp
  exact ⟨release u b v, h.free hb⟩

theorem Canonical.write {m' : Mem} (h : Canonical R s live l) (hb : b ∈ l)
    (hm : ∀ x, x < b.addr + 40 ∨ b.addr + 40 + b.size ≤ x → m' x = s.mem x) :
    Canonical R { s with mem := m' } live l :=
  ⟨h.toHolds.write hb hm, h.coalesced⟩

/-- Freeing the block that was taken gives the former list back, whatever its
owner has written (the heap `s'`) in between. -/
theorem Canonical.take_free {s' : Heap} (h : Canonical R s live (l ++ b :: r)) {size : Nat}
    (hfit : Fits size b)
    (h' : Canonical R s' (insert (b.addr + 40) live)
      (l ++ (cut { b with free := false } size ++ r))) :
    Canonical R (userFree s' (b.addr + 40)) live (l ++ b :: r) := by
  obtain ⟨d, t, hcut, haddr, hused, ht⟩ : ∃ d t, cut { b with free := false } size = d :: t ∧
      d.addr = b.addr ∧ d.free = false ∧ used t = [] := by
    unfold cut
    split
    · exact ⟨_, _, rfl, rfl, rfl, rfl⟩
    · exact ⟨_, _, rfl, rfl, rfl, rfl⟩
  rw [hcut] at h'
  have hfree := Canonical.free (l := l) (r := t ++ r) h' hused
  rw [haddr, Finset.erase_insert (h.toHolds.took hfit).fresh] at hfree
  rw [← hfree.unique h fun c => ?_]
  · exact hfree
  have hgone : used (t ++ r) = used r := by simp_all [used]
  have hsame : used (b :: r) = used r := by simp [used, hfit.1]
  rw [used_release, hgone, ← hsame]
  simp [used]

/-- Live blocks are freed, one after the other. -/
def UserFrees : Client Heap → Client Heap → Prop :=
  Relation.ReflTransGen fun c c' => ∃ p ∈ c.live, c' = ⟨userFree c.heap p, c.live.erase p⟩

theorem Canonical.frees {c' : Client Heap} (h : Canonical R c.heap c.live l)
    (hfrees : UserFrees c c') : ∃ l', Canonical R c'.heap c'.live l' := by
  induction hfrees with
  | refl => exact ⟨l, h⟩
  | tail _ hstep ih =>
    obtain ⟨l', hl'⟩ := ih
    obtain ⟨p, hp, rfl⟩ := hstep
    exact hl'.free_live hp

/-- Calls of `user_malloc` and `user_free`, and writes into live payloads. -/
def MallocFree (R : Region) (c : Client Heap) (o : Op) : Prop :=
  (user R).Permitted c o ∧
    match o with
    | .realloc _ _ => False
    | _ => True

theorem Canonical.step (h : Canonical R c.heap c.live l) {o : Op} (ho : MallocFree R c o)
    {c' : Client Heap} (hstep : (user R).step c o = some c') :
    ∃ l', Canonical R c'.heap c'.live l' := by
  cases o with
  | malloc n =>
    rcases userMalloc_found h.toHolds n with ⟨hnull, -⟩ | ⟨u, b, v, rfl, hfit, -, hsome⟩
    · simp only [Allocator.step, user, hnull, Option.map_some, if_true] at hstep
      cases hstep
      exact ⟨l, h⟩
    · simp only [Allocator.step, user, hsome, Option.map_some] at hstep
      cases hstep
      rw [if_neg (by simp)]
      exact ⟨_, h.take hfit⟩
  | free p =>
    simp only [Allocator.step, user] at hstep
    cases hstep
    rcases ho.1 with rfl | hp
    · rw [Finset.erase_eq_of_notMem h.toHolds.zero_notMem]
      exact ⟨l, h⟩
    · exact h.free_live hp
  | realloc p n => exact absurd ho.2 id
  | write p off bs =>
    simp only [Allocator.step, user] at hstep
    cases hstep
    exact ⟨l, h.toHolds.clientWrite ho.1.1 ho.1.2, h.coalesced⟩

theorem canonical_run {m : Mem} {os : List Op}
    (hr : Run (user R).step (MallocFree R) (userStart R m) os c) :
    ∃ l, Canonical R c.heap c.live l := by
  refine hr.invariant (I := fun c => ∃ l, Canonical R c.heap c.live l) ?_
    ⟨_, userStart_holds R m, List.isChain_singleton _⟩
  rintro c o c' ⟨l, hl⟩ ho hstep
  exact hl.step ho hstep

/-- A live block of a client: the address of its header, its size. -/
def LiveBlock (c : Client Heap) (b : Block) : Prop :=
  b.free = false ∧ b.addr + 40 ∈ c.live ∧ blockSize c.heap.mem (b.addr + 40) = b.size

/-- After every run of `user_malloc` and `user_free`, the free blocks are the
maximal gaps between the live blocks. So the block list depends on the live
blocks alone, an allocation that is freed at once leaves the list as it was, and
without live blocks the list is the initial one. -/
theorem user_heap_canonical (R : Region) (m : Mem) {os : List Op} {c : Client Heap}
    (hr : Run (user R).step (MallocFree R) (userStart R m) os c) :
    ∃ l, blockList c.heap = some l ∧
      (∀ b, b.free = false → (b ∈ l ↔ LiveBlock c b)) ∧
      (∀ a e, (∃ b ∈ l, b.free = true ∧ b.addr = a ∧ b.addr + 40 + b.size = e) ↔
        Gap 40 R.lo R.hi (LiveBlock c) a e) ∧
      (∀ (m' : Mem) (os' : List Op) (c' : Client Heap),
        Run (user R).step (MallocFree R) (userStart R m') os' c' →
        (∀ b, LiveBlock c' b ↔ LiveBlock c b) → blockList c'.heap = some l) ∧
      (∀ n s' p, userMalloc R c.heap n = some (s', p) → blockList (userFree s' p) = some l) ∧
      (c.live = ∅ → l = [⟨R.lo, R.hi - R.lo - 40, true⟩]) := by
  obtain ⟨l, hl⟩ := canonical_run hr
  have hmem : ∀ {c : Client Heap} {l}, Canonical R c.heap c.live l →
      ∀ b, b ∈ l ∧ b.free = false ↔ LiveBlock c b := by
    intro c l hl b
    constructor
    · exact fun hb => ⟨hb.2, (hl.toHolds.mem_iff hb.2).mp hb.1⟩
    · exact fun hb => ⟨(hl.toHolds.mem_iff hb.1).mpr hb.2, hb.1⟩
  refine ⟨l, blockList_eq hl.layout hl.head, fun b hb => ?_, fun a e => ?_, ?_, ?_, ?_⟩
  · rw [← hmem hl b, and_iff_left hb]
  · have hsets : LiveBlock c = fun b => b ∈ l ∧ b.free = false := by
      funext b
      exact propext (hmem hl b).symm
    rw [hsets]
    exact hl.coalesced.free_iff_gap hl.layout.tiles (by decide)
  · intro m' os' c' hr' hsame
    obtain ⟨l', hl'⟩ := canonical_run hr'
    rw [blockList_eq hl'.layout hl'.head, hl'.unique hl fun b => ?_]
    rw [mem_used, mem_used, hmem hl', hmem hl]
    exact hsame b
  · intro n s' p hret
    rcases userMalloc_found hl.toHolds n with ⟨hnull, -⟩ | ⟨u, b, v, rfl, hfit, -, hsome⟩
    · rw [hnull] at hret
      cases hret
      exact blockList_eq hl.layout hl.head
    · rw [hsome] at hret
      cases hret
      have hfree := hl.take_free hfit (hl.take hfit)
      exact blockList_eq hfree.layout hfree.head
  · intro hnone
    have hstart : Canonical R (userStart R m).heap (userStart R m).live
        [⟨R.lo, R.hi - R.lo - 40, true⟩] :=
      ⟨userStart_holds R m, List.isChain_singleton _⟩
    refine hl.unique hstart fun b => ?_
    rw [mem_used, mem_used, hmem hl, hmem hstart]
    simp [LiveBlock, hnone, userStart]

instance (c : Client Heap) : (o : Op) → Decidable (MallocFree R c o)
  | .malloc _ => inferInstanceAs (Decidable (_ ∧ True))
  | .free _ => inferInstanceAs (Decidable (_ ∧ True))
  | .realloc _ _ => inferInstanceAs (Decidable (_ ∧ False))
  | .write _ _ _ => inferInstanceAs (Decidable (_ ∧ True))

/-- Three blocks; the first two are freed, in the order of their addresses. -/
def freeTwo : List Op :=
  [.malloc 24, .malloc 3, .malloc 100, .free 0x200028, .free 0x200068]

theorem user_heap_canonical_freeTwo :
    ∃ c, Run (user region128).step (MallocFree region128) (userStart region128 fun _ => 0)
        freeTwo c ∧
      blockList c.heap = some [⟨0x200000, 72, true⟩, ⟨0x200070, 104, false⟩,
        ⟨0x200100, 0x8200000 - 0x200100 - 40, true⟩] ∧
      Gap 40 0x200000 0x8200000 (LiveBlock c) 0x200000 0x200070 := by
  have hexec : (exec (user region128).step (MallocFree region128)
      (userStart region128 fun _ => 0) freeTwo).map (fun c => blockList c.heap) =
      some (some [⟨0x200000, 72, true⟩, ⟨0x200070, 104, false⟩,
        ⟨0x200100, 0x8200000 - 0x200100 - 40, true⟩]) := by
    decide +kernel
  obtain ⟨c, hc, hlist⟩ := Option.map_eq_some_iff.mp hexec
  obtain ⟨l, hl, -, hgaps, -⟩ := user_heap_canonical region128 (fun _ => 0) (Run.of_exec hc)
  refine ⟨c, Run.of_exec hc, hlist, (hgaps _ _).mp ⟨⟨0x200000, 72, true⟩, ?_, rfl, rfl, rfl⟩⟩
  rw [hlist] at hl
  rw [← Option.some.inj hl]
  exact List.mem_cons_self

end KernelC.Malloc
