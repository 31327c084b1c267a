import KernelC.Malloc.Frame
import KernelC.Malloc.Kernel
import KernelC.Malloc.User

/-!
# Freeing a pointer again

After `free(p)` the header of `p` is the header of a free block, or lies inside a
larger one that it was merged into. `free` and `user_free` look at its magic
number and its free flag. Until the next allocation nothing changes these: frees
of other pointers write other fields of the headers they merge, and clients write
to used payloads only. So a second `free(p)` returns at once.

`Stale` is what is known of such a header: it lies in a free block, and no header
of the list overlaps it in part. Results: `Stale.freed`, `Stale.freeOther` and
`Stale.write` over one step, `repeated_free_harmless` over runs of both
allocators.
-/

namespace KernelC.Malloc

open Block

variable {magic : Nat} {R : Region} {m : Mem} {s : Heap} {live : Finset Nat}
  {l r : List Block} {b c : Block} {h : Nat}

/-! ## The flags of a header -/

/-- A header of the list at `h`, or apart from it. -/
def Quiet (l : List Block) (h : Nat) : Prop :=
  ∀ c ∈ l, c.addr = h ∨ h + 40 ≤ c.addr ∨ c.addr + 40 ≤ h

theorem Quiet.of_addr (hq : Quiet l h) (hsub : ∀ c ∈ r, ∃ d ∈ l, d.addr = c.addr) : Quiet r h := by
  intro c hc
  obtain ⟨d, hd, heq⟩ := hsub c hc
  rw [← heq]
  exact hq d hd

/-- The magic number and the free flag of `h` are the same in both memories. -/
def SameFlags (m m' : Mem) (h : Nat) : Prop :=
  get m' h .magic = get m h .magic ∧ get m' h .free = get m h .free

theorem SameFlags.trans {m m' m'' : Mem} (h1 : SameFlags m m' h) (h2 : SameFlags m' m'' h) :
    SameFlags m m'' h :=
  ⟨h2.1.trans h1.1, h2.2.trans h1.2⟩

/-- An assignment to another field, of this header or of one apart from it. -/
theorem put_sameFlags {a v : Nat} {f : Field} (hf : f ≠ .magic ∧ f ≠ .free)
    (ha : a = h ∨ h + 40 ≤ a ∨ a + 40 ≤ h) : SameFlags m (put m a f v) h := by
  rcases ha with rfl | hap
  · exact ⟨by rw [get_put, if_neg hf.1], by rw [get_put, if_neg hf.2]⟩
  · exact ⟨get_put_apart (by omega), get_put_apart (by omega)⟩

theorem linkPrev_sameFlags {v : Nat} (hq : Quiet r h) :
    SameFlags m (linkPrev m (first r 0) v) h := by
  unfold linkPrev
  cases r with
  | nil => exact ⟨rfl, rfl⟩
  | cons d r =>
    rw [first_cons]
    split
    · exact put_sameFlags (by decide) (hq d List.mem_cons_self)
    · exact ⟨rfl, rfl⟩

theorem absorb_sameFlags {a n : Block} (hl : Layout magic R m (l ++ a :: n :: r))
    (hq : Quiet (a :: r) h) : SameFlags m (absorb m a.addr n.addr) h := by
  have hn : Stored magic m n (last 0 (l ++ [a])) (first r 0) :=
    Layout.stored (l := l ++ [a]) (by simpa using hl)
  have han := Layout.before (l := l ++ [a]) (r := n :: r) (by simpa using hl) (a := a) (c := n)
    (by simp) (by simp)
  have ha := hq a List.mem_cons_self
  unfold absorb
  simp (disch := omega) only [get_put_apart, hn.next]
  exact ((put_sameFlags (by decide) ha).trans (put_sameFlags (by decide) ha)).trans
    (linkPrev_sameFlags fun d hd => hq d (List.mem_cons_of_mem _ hd))

theorem coalesceNext_sameFlags (hl : Layout magic R s.mem (l ++ b :: r)) (hq : Quiet (b :: r) h) :
    SameFlags s.mem (coalesceNext s b.addr).mem h := by
  unfold coalesceNext
  rw [hl.stored.next]
  cases r with
  | nil => exact ⟨rfl, rfl⟩
  | cons n r =>
    rw [first_cons]
    dsimp only
    split
    · dsimp only
      refine absorb_sameFlags hl fun d hd => hq d ?_
      rcases List.mem_cons.mp hd with rfl | hd
      · simp
      · simp [hd]
    · exact ⟨rfl, rfl⟩

theorem coalescePrev_sameFlags (hl : Layout magic R s.mem (l ++ b :: r)) (hq : Quiet (l ++ r) h) :
    SameFlags s.mem (coalescePrev s b.addr).mem h := by
  unfold coalescePrev
  rw [hl.stored.prev]
  cases l using List.reverseRecOn with
  | nil => exact ⟨rfl, rfl⟩
  | append_singleton l p =>
    have hl' : Layout magic R s.mem (l ++ p :: b :: r) := by simpa using hl
    simp only [last_append, last_cons, last_nil]
    split
    · dsimp only
      refine absorb_sameFlags hl' fun d hd => hq d ?_
      rcases List.mem_cons.mp hd with rfl | hd
      · simp
      · simp [hd]
    · exact ⟨rfl, rfl⟩

theorem coalesce_sameFlags (hl : Layout magic R s.mem (l ++ b :: r))
    (hq : Quiet (l ++ b :: r) h) : SameFlags s.mem (coalesce s b.addr).mem h := by
  have hnext := coalesceNext_spec hl
  have htail := joinNext_tail b r
  unfold coalesce
  rw [if_neg (hl.addr_ne_zero b (by simp))]
  obtain ⟨d, t, heq, haddr, -⟩ := joinNext_cons b r
  rw [heq] at hnext htail
  have hfirst := coalesceNext_sameFlags hl (h := h) fun e he => hq e (by simp [List.mem_cons.mp he])
  refine hfirst.trans ?_
  rw [← haddr] at hnext ⊢
  refine coalescePrev_sameFlags hnext fun e he => hq e ?_
  rcases List.mem_append.mp he with he | he
  · simp [he]
  · have := htail e he
    simp [this]

/-! ## The block that covers a header -/

/-- `h` is in the free block `c`, as its header or behind it. -/
def Covers (c : Block) (h : Nat) : Prop := c.free = true ∧ c.addr ≤ h ∧ h ≤ c.addr + c.size

theorem joinNext_addr (b : Block) (r : List Block) :
    ∀ c ∈ joinNext b r, ∃ d ∈ b :: r, d.addr = c.addr := by
  intro c hc
  cases r with
  | nil => exact ⟨c, hc, rfl⟩
  | cons n r =>
    simp only [joinNext] at hc
    split at hc
    · rcases List.mem_cons.mp hc with rfl | hc
      · exact ⟨b, by simp, rfl⟩
      · exact ⟨c, by simp [hc], rfl⟩
    · exact ⟨c, hc, rfl⟩

theorem joinPrev_addr (l : List Block) (b : Block) (r : List Block) :
    ∀ c ∈ joinPrev l (b :: r), ∃ d ∈ l ++ b :: r, d.addr = c.addr := by
  intro c hc
  cases l using List.reverseRecOn with
  | nil => exact ⟨c, hc, rfl⟩
  | append_singleton l p =>
    unfold joinPrev at hc
    simp only [List.getLast?_concat, List.dropLast_concat] at hc
    split at hc
    · rcases List.mem_append.mp hc with hc | hc
      · exact ⟨c, by simp [hc], rfl⟩
      · rcases List.mem_cons.mp hc with rfl | hc
        · exact ⟨p, by simp, rfl⟩
        · exact ⟨c, by simp [hc], rfl⟩
    · exact ⟨c, hc, rfl⟩

/-- Merging a block with its neighbours moves no header. -/
theorem release_addr (l r : List Block) (b : Block) :
    ∀ c ∈ release l b r, ∃ d ∈ l ++ b :: r, d.addr = c.addr := by
  intro c hc
  unfold release at hc
  have hnext := joinNext_addr { b with free := true } r
  obtain ⟨e, t, heq, -, -⟩ := joinNext_cons { b with free := true } r
  rw [heq] at hc hnext
  obtain ⟨d, hd, haddr⟩ := joinPrev_addr l e t c hc
  rcases List.mem_append.mp hd with hd | hd
  · exact ⟨d, by simp [hd], haddr⟩
  · obtain ⟨d', hd', haddr'⟩ := hnext d hd
    rcases List.mem_cons.mp hd' with rfl | hd'
    · exact ⟨b, by simp, haddr'.trans haddr⟩
    · exact ⟨d', by simp [hd'], haddr'.trans haddr⟩

theorem joinNext_covers {lo hi : Nat} (ht : Tiles 40 lo (b :: r) hi) (hb : b.free = true)
    (hc : c ∈ b :: r) (hcov : Covers c h) : ∃ d ∈ joinNext b r, Covers d h := by
  cases r with
  | nil => exact ⟨c, hc, hcov⟩
  | cons n r =>
    obtain ⟨ha, hna, -⟩ := ht
    obtain ⟨hfree, h1, h2⟩ := hcov
    simp only [joinNext]
    split
    · simp only [List.mem_cons] at hc
      rcases hc with rfl | rfl | hc
      · exact ⟨{ c with size := c.size + 40 + n.size }, by simp, hb, h1, by dsimp only; omega⟩
      · exact ⟨{ b with size := b.size + 40 + c.size }, by simp, hb, by dsimp only; omega,
          by dsimp only; omega⟩
      · exact ⟨c, by simp [hc], hfree, h1, h2⟩
    · exact ⟨c, hc, hfree, h1, h2⟩

theorem joinNext_tiles {lo hi : Nat} (ht : Tiles 40 lo (b :: r) hi) :
    Tiles 40 lo (joinNext b r) hi := by
  cases r with
  | nil => exact ht
  | cons n r =>
    obtain ⟨ha, hna, hr⟩ := ht
    simp only [joinNext]
    split
    · refine ⟨ha, ?_⟩
      rw [hna] at hr
      simpa [Nat.add_assoc] using hr
    · exact ⟨ha, hna, hr⟩

theorem joinPrev_covers {lo hi : Nat} (ht : Tiles 40 lo (l ++ b :: r) hi) (hc : c ∈ l ++ b :: r)
    (hcov : Covers c h) : ∃ d ∈ joinPrev l (b :: r), Covers d h := by
  cases l using List.reverseRecOn with
  | nil => exact ⟨c, hc, hcov⟩
  | append_singleton l p =>
    obtain ⟨mid, -, -, hba, -⟩ := tiles_append.mp
      (show Tiles 40 lo (l ++ p :: b :: r) hi by simpa using ht)
    obtain ⟨hfree, h1, h2⟩ := hcov
    unfold joinPrev
    simp only [List.getLast?_concat, List.dropLast_concat]
    split
    · next hp =>
      simp only [List.mem_append, List.mem_cons, List.not_mem_nil, or_false] at hc
      rcases hc with (hc | rfl) | rfl | hc
      · exact ⟨c, by simp [hc], hfree, h1, h2⟩
      · exact ⟨{ c with size := c.size + 40 + b.size }, by simp, hp, h1, by dsimp only; omega⟩
      · exact ⟨{ p with size := p.size + 40 + c.size }, by simp, hp, by dsimp only; omega,
          by dsimp only; omega⟩
      · exact ⟨c, by simp [hc], hfree, h1, h2⟩
    · exact ⟨c, hc, hfree, h1, h2⟩

/-- What a free block covers is covered after a block was freed. -/
theorem release_covers {lo hi : Nat} (ht : Tiles 40 lo (l ++ { b with free := true } :: r) hi)
    (hc : c ∈ l ++ { b with free := true } :: r) (hcov : Covers c h) :
    ∃ d ∈ release l b r, Covers d h := by
  obtain ⟨mid, hleft, hright⟩ := tiles_append.mp ht
  have hnext : ∃ d ∈ l ++ joinNext { b with free := true } r, Covers d h := by
    rcases List.mem_append.mp hc with hc | hc
    · exact ⟨c, by simp [hc], hcov⟩
    · obtain ⟨d, hd, hdcov⟩ := joinNext_covers hright rfl hc hcov
      exact ⟨d, by simp [hd], hdcov⟩
  have hjoined := tiles_append.mpr ⟨mid, hleft, joinNext_tiles hright⟩
  unfold release
  obtain ⟨e, t, heq, -, -⟩ := joinNext_cons { b with free := true } r
  rw [heq] at hjoined hnext ⊢
  obtain ⟨d, hd, hdcov⟩ := hnext
  exact joinPrev_covers hjoined hd hdcov

/-! ## Headers of freed blocks -/

/-- A header at `h` that `free` takes for that of a free block, inside a free block. -/
structure Stale (magic : Nat) (R : Region) (s : Heap) (live : Finset Nat) (h : Nat) : Prop where
  covered : ∃ l, Holds magic R s live l ∧ Quiet l h ∧ ∃ c ∈ l, Covers c h
  magic : get s.mem h .magic = magic
  free : get s.mem h .free ≠ 0

theorem freeBlock_eq (hl : Layout magic R s.mem (l ++ b :: r)) (hused : b.free = false) :
    freeBlock magic s (b.addr + 40) =
      coalesce { s with mem := put s.mem b.addr .free 1 } b.addr := by
  have hzero : get s.mem b.addr .free = 0 := by rw [hl.stored.free, hused]; rfl
  unfold freeBlock
  rw [if_neg (by omega), payloadToHeader_eq hl]
  simp only [hl.stored.magic, hzero, ne_eq, not_true_eq_false, if_false]

theorem Layout.quiet (hl : Layout magic R m l) (hb : b ∈ l) : Quiet l b.addr := by
  intro c hc
  by_cases hcb : c = b
  · exact .inl (by rw [hcb])
  · have := hl.tiles.apart hc hb hcb
    omega

/-- What freeing the block `b` does to the header at `h`. -/
theorem freeBlock_sameFlags (hl : Layout magic R s.mem (l ++ b :: r)) (hused : b.free = false)
    (hq : Quiet (l ++ b :: r) h) :
    SameFlags (put s.mem b.addr .free 1) (freeBlock magic s (b.addr + 40)).mem h := by
  rw [freeBlock_eq hl hused]
  exact coalesce_sameFlags (b := { b with free := true })
    (s := { s with mem := put s.mem b.addr .free 1 }) (putFree_spec hl true)
    (hq.of_addr fun c hc => by
      simp only [List.mem_append, List.mem_cons] at hc
      rcases hc with hc | rfl | hc
      · exact ⟨c, by simp [hc], rfl⟩
      · exact ⟨b, by simp, rfl⟩
      · exact ⟨c, by simp [hc], rfl⟩)

namespace Stale

/-- The header of a block that was just freed. -/
theorem freed (hh : Holds magic R s live (l ++ b :: r)) (hused : b.free = false) :
    Stale magic R (freeBlock magic s (b.addr + 40)) (live.erase (b.addr + 40)) b.addr := by
  have hq := hh.layout.quiet (b := b) (by simp)
  have hflags := freeBlock_sameFlags hh.layout hused hq
  refine ⟨⟨_, hh.free hused, hq.of_addr (release_addr l r b), ?_⟩, ?_, ?_⟩
  · exact release_covers (b := b) (putFree_spec hh.layout true).tiles
      (c := { b with free := true }) (by simp) ⟨rfl, Nat.le_refl _, Nat.le_add_right _ _⟩
  · rw [hflags.1, get_put, if_neg (by decide), hh.layout.stored.magic]
  · rw [hflags.2, get_put, if_pos rfl]
    decide

/-- Another pointer is freed. -/
theorem freeOther (hs : Stale magic R s live h) {q : Nat} (hq : q ∈ live) :
    Stale magic R (freeBlock magic s q) (live.erase q) h := by
  obtain ⟨l, hl, hquiet, c, hc, hcov⟩ := hs.covered
  obtain ⟨u, b, v, rfl, hused, rfl⟩ := hl.block hq
  have hne : b ≠ c := by
    rintro rfl
    exact absurd (hused.symm.trans hcov.1) (by decide)
  have hapart := hl.layout.tiles.apart (a := b) (by simp) hc hne
  have hbh : b.addr = h ∨ h + 40 ≤ b.addr ∨ b.addr + 40 ≤ h := hquiet b (by simp)
  obtain ⟨-, hlow, hhigh⟩ := id hcov
  have hflags := freeBlock_sameFlags hl.layout hused hquiet
  have hsame : ∀ f, get (put s.mem b.addr .free 1) h f = get s.mem h f :=
    fun f => get_put_apart (by omega)
  refine ⟨⟨_, hl.free hused, hquiet.of_addr (release_addr u v b), ?_⟩, ?_, ?_⟩
  · refine release_covers (b := b) (putFree_spec hl.layout true).tiles (c := c) ?_ hcov
    simp only [List.mem_append, List.mem_cons] at hc ⊢
    rcases hc with hc | rfl | hc
    · exact .inl hc
    · exact absurd rfl hne
    · exact .inr (.inr hc)
  · rw [hflags.1, hsame, hs.magic]
  · rw [hflags.2, hsame]
    exact hs.free

/-- A client writes into a live payload. -/
theorem write (hs : Stale magic R s live h) {p off : Nat} {bs : List UInt8} (hp : p ∈ live)
    (hoff : off + bs.length ≤ blockSize s.mem p) :
    Stale magic R { s with mem := store s.mem (p + off) bs } live h := by
  obtain ⟨l, hl, hquiet, c, hc, hcov⟩ := hs.covered
  have hwrite := hl.clientWrite hp hoff
  obtain ⟨u, b, v, rfl, hused, rfl⟩ := hl.block hp
  rw [hl.blockSize_eq] at hoff
  have hne : b ≠ c := by
    rintro rfl
    exact absurd (hused.symm.trans hcov.1) (by decide)
  have hapart := hl.layout.tiles.apart (a := b) (by simp) hc hne
  obtain ⟨-, hlow, hhigh⟩ := id hcov
  have hsame : ∀ f, get (store s.mem (b.addr + 40 + off) bs) h f = get s.mem h f :=
    fun f => get_congr f fun x h1 h2 => store_of_outside (by omega)
  exact ⟨⟨_, hwrite, hquiet, c, hc, hcov⟩, (hsame _).trans hs.magic, by rw [hsame]; exact hs.free⟩

/-- Freeing it again does nothing. -/
theorem free_again (hs : Stale magic R s live h) : freeBlock magic s (h + 40) = s := by
  obtain ⟨l, hl, -, c, hc, hcov⟩ := hs.covered
  have hbd := hl.layout.bounds hc
  obtain ⟨-, hlow, hhigh⟩ := hcov
  have hheader : payloadToHeader (h + 40) = h := by
    unfold payloadToHeader
    rw [wsub_eq (by omega) (by omega)]
    omega
  unfold freeBlock
  rw [if_neg (by omega), hheader]
  simp only [hs.magic, ne_eq, not_true_eq_false, if_false]
  exact if_pos hs.free

end Stale

/-! ## Runs -/

/-- Frees, and writes into live payloads. -/
def FreesAndWrites {σ : Type} (A : Allocator σ) (c : Client σ) (o : Op) : Prop :=
  A.Permitted c o ∧
    match o with
    | .free _ => True
    | .write _ _ _ => True
    | _ => False

/-- An allocator that frees by the block list: `view` is the list with its memory. -/
structure FreesBlocks {σ : Type} (A : Allocator σ) (magic : Nat) (view : σ → Heap) : Prop where
  mem : ∀ s, A.mem s = (view s).mem
  setMem : ∀ s m, view (A.setMem s m) = { view s with mem := m }
  free : ∀ s p, view (A.free s p) = freeBlock magic (view s) p

theorem user_freesBlocks (R : Region) : FreesBlocks (user R) userMagic id :=
  ⟨fun _ => rfl, fun _ _ => rfl, fun _ _ => rfl⟩

theorem kernel_freesBlocks (R : Region) :
    FreesBlocks (Kernel.kernel R) Kernel.kernelMagic Kernel.KHeap.toHeap :=
  ⟨fun _ => rfl, fun _ _ => rfl, fun _ _ => rfl⟩

namespace FreesBlocks

variable {σ : Type} {A : Allocator σ} {view : σ → Heap} {c₀ c₁ c₂ : Client σ}

theorem stale_step (hA : FreesBlocks A magic view) {o : Op} (ho : FreesAndWrites A c₀ o)
    (hstep : A.step c₀ o = some c₁) (hs : Stale magic R (view c₀.heap) c₀.live h) :
    Stale magic R (view c₁.heap) c₁.live h := by
  obtain ⟨hperm, ho⟩ := ho
  cases o with
  | malloc n => exact absurd ho id
  | free q =>
    obtain rfl := Option.some.inj hstep
    dsimp only
    rw [hA.free]
    rcases hperm with rfl | hq
    · obtain ⟨l, hl, -⟩ := hs.covered
      rwa [Finset.erase_eq_of_notMem hl.zero_notMem]
    · exact hs.freeOther hq
  | realloc p n => exact absurd ho id
  | write p off bs =>
    obtain rfl := Option.some.inj hstep
    obtain ⟨hp, hoff⟩ := hperm
    rw [hA.mem] at hoff
    dsimp only
    rw [hA.setMem, hA.mem]
    exact hs.write hp hoff

/-- A live pointer is freed, and freed again after other frees and writes. -/
theorem free_twice (hA : FreesBlocks A magic view) (hl : Holds magic R (view c₀.heap) c₀.live l)
    {p : Nat} (hp : p ∈ c₀.live) (hfree : A.step c₀ (.free p) = some c₁) {os : List Op}
    (hr : Run A.step (FreesAndWrites A) c₁ os c₂) :
    freeBlock magic (view c₂.heap) p = view c₂.heap := by
  obtain ⟨u, b, v, rfl, hused, rfl⟩ := hl.block hp
  obtain rfl := Option.some.inj hfree
  have hstale : Stale magic R (view c₂.heap) c₂.live b.addr := by
    refine hr.invariant (I := fun c => Stale magic R (view c.heap) c.live b.addr)
      (fun _ _ _ hs ho hstep => hA.stale_step ho hstep hs) ?_
    dsimp only
    rw [hA.free]
    exact Stale.freed hl hused
  exact hstale.free_again

end FreesBlocks

/-- In every reachable heap of either allocator, the kernel's without an expansion: after
`free(p)` and any frees of other live pointers and writes of clients, `free(p)` leaves the heap,
its headers and its block list included, as it is. -/
theorem repeated_free_harmless (R : Region) (m : Mem) :
    (∀ os c, Run (user R).step (user R).Permitted (userStart R m) os c →
      ∀ p ∈ c.live, ∀ c₁ os' c₂, (user R).step c (.free p) = some c₁ →
        Run (user R).step (FreesAndWrites (user R)) c₁ os' c₂ → userFree c₂.heap p = c₂.heap) ∧
    ∀ os c, Run (Kernel.kernel R).step
        (fun c o => (Kernel.kernel R).Permitted c o ∧ Kernel.NoExpand R c o)
        (Kernel.kernelStart R m) os c →
      ∀ p ∈ c.live, ∀ c₁ os' c₂, (Kernel.kernel R).step c (.free p) = some c₁ →
        Run (Kernel.kernel R).step (FreesAndWrites (Kernel.kernel R)) c₁ os' c₂ →
        Kernel.free c₂.heap p = c₂.heap := by
  constructor
  · intro os c hr p hp c₁ os' c₂ hfree hrun
    obtain ⟨l, hl⟩ := user_run hr
    exact (user_freesBlocks R).free_twice hl hp hfree hrun
  · intro os c hr p hp c₁ os' c₂ hfree hrun
    obtain ⟨l, hl⟩ := Kernel.kernel_run hr
    have hagain := (kernel_freesBlocks R).free_twice hl hp hfree hrun
    unfold Kernel.free
    rw [hagain]

instance {σ : Type} (A : Allocator σ) (c : Client σ) : (o : Op) → Decidable (FreesAndWrites A c o)
  | .malloc _ => inferInstanceAs (Decidable (_ ∧ False))
  | .free _ => inferInstanceAs (Decidable (_ ∧ True))
  | .realloc _ _ => inferInstanceAs (Decidable (_ ∧ False))
  | .write _ _ _ => inferInstanceAs (Decidable (_ ∧ True))

/-- Two blocks: the second is freed, the first written to and freed, which merges the second into
it, and the second is freed again. -/
theorem repeated_free_merged :
    ∃ c c₂, Run (user region128).step (user region128).Permitted (userStart region128 fun _ => 0)
        [.malloc 24, .malloc 24] c ∧
      Run (user region128).step (FreesAndWrites (user region128))
        ⟨userFree c.heap 0x200068, c.live.erase 0x200068⟩
        [.write 0x200028 0 [1, 2, 3], .free 0x200028] c₂ ∧
      userFree c₂.heap 0x200068 = c₂.heap := by
  have hexec : (exec (user region128).step (user region128).Permitted
      (userStart region128 fun _ => 0) [.malloc 24, .malloc 24]).map (fun c => (c.live,
        (exec (user region128).step (FreesAndWrites (user region128))
          ⟨userFree c.heap 0x200068, c.live.erase 0x200068⟩
          [.write 0x200028 0 [1, 2, 3], .free 0x200028]).map Client.live)) =
      some ({0x200028, 0x200068}, some ∅) := by
    decide +kernel
  obtain ⟨c, hc, heq⟩ := Option.map_eq_some_iff.mp hexec
  rw [Prod.mk.injEq] at heq
  obtain ⟨hlive, hrest⟩ := heq
  obtain ⟨c₂, hc₂, -⟩ := Option.map_eq_some_iff.mp hrest
  exact ⟨c, c₂, Run.of_exec hc, Run.of_exec hc₂,
    (repeated_free_harmless region128 fun _ => 0).1 _ c (Run.of_exec hc) 0x200068 (by simp [hlive])
      _ _ c₂ rfl (Run.of_exec hc₂)⟩

end KernelC.Malloc
