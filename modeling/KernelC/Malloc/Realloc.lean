import KernelC.Malloc.Frame

/-!
# Reallocation

Both allocators reallocate in the same four ways: the block is cut where it is,
grows over free blocks behind it, stays because no block fits, or moves to the
first block that fits. `ReallocTo` lists them, with the heap and the block list
that each leaves; the allocators differ in when a block grows. `Resized` is what
becomes of the list alone. It has one more way, a block that the kernel's heap gets
for the move.

Results: the list is that of the pointers then live (`ReallocTo.holds`), the
block returned is large enough (`Resized.large`), and neither its data nor the
other payloads change (`ReallocTo.copied`, `ReallocTo.kept`).
-/

namespace KernelC.Malloc

open Block

variable {magic : Nat} {R : Region} {s s' : Heap} {live : Finset Nat} {u v l' : List Block}
  {b : Block} {new q : Nat}

/-- The block `a` is given the size `sz` and the successor `n`. -/
def mergeBlock (m : Mem) (a sz n : Nat) : Mem :=
  linkPrev (put (put m a .size sz) a .next n) n a

/-- The heap `s` after the payload of `n` bytes at `p` was copied to `q` and freed. -/
def copyAndFree (magic : Nat) (s : Heap) (q p n : Nat) : Heap :=
  freeBlock magic { s with mem := memcpy s.mem q p n } p

/-- What a reallocation of the block `b`, between the blocks `u` and `v`, to `new` bytes can make
of the heap `s`: the heap after it, the pointer it returns and the block list. -/
inductive ReallocTo (magic : Nat) (s : Heap) (u : List Block) (b : Block) (v : List Block)
    (new : Nat) : Heap → Nat → List Block → Prop
  | shrink (hsize : new ≤ b.size) :
      ReallocTo magic s u b v new (splitBlock magic s b.addr new) (b.addr + 40)
        (u ++ (cut b new ++ v))
  | grow {w r : List Block} {sz : Nat} (hbig : b.size < new) (hv : v = w ++ r)
      (hfree : ∀ c ∈ w, c.free = true) (hsz : sz = b.size + extent 40 w) (hroom : new ≤ sz) :
      ReallocTo magic s u b v new
        (takeBlock magic { s with mem := mergeBlock s.mem b.addr sz (first r 0) } b.addr new).1
        (b.addr + 40) (u ++ (cut { b with size := sz } new ++ r))
  | fail (hbig : b.size < new) (hnone : ∀ d ∈ u ++ b :: v, ¬ Fits new d) :
      ReallocTo magic s u b v new s 0 (u ++ b :: v)
  | move {u₁ v₁ u₂ v₂ : List Block} {d : Block} (hbig : b.size < new)
      (hlist : u ++ b :: v = u₁ ++ d :: v₁) (hfit : Fits new d)
      (htaken : u₁ ++ (cut { d with free := false } new ++ v₁) = u₂ ++ b :: v₂) :
      ReallocTo magic s u b v new
        (copyAndFree magic (takeBlock magic s d.addr new).1 (d.addr + 40) (b.addr + 40) b.size)
        (d.addr + 40) (release u₂ b v₂)

/-- What a reallocation of the block `b`, between the blocks `u` and `v`, to `new` bytes can make
of the list: the pointer it returns and the list after it. -/
inductive Resized (u : List Block) (b : Block) (v : List Block) (new : Nat) :
    Nat → List Block → Prop
  | shrink (hsize : new ≤ b.size) : Resized u b v new (b.addr + 40) (u ++ (cut b new ++ v))
  | grow {w r : List Block} {sz : Nat} (hbig : b.size < new) (hv : v = w ++ r)
      (hfree : ∀ c ∈ w, c.free = true) (hsz : sz = b.size + extent 40 w) (hroom : new ≤ sz) :
      Resized u b v new (b.addr + 40) (u ++ (cut { b with size := sz } new ++ r))
  | fail (hbig : b.size < new) : Resized u b v new 0 (u ++ b :: v)
  | move {u₁ v₁ u₂ v₂ : List Block} {d : Block} (hbig : b.size < new)
      (hlist : u ++ b :: v = u₁ ++ d :: v₁) (hfit : Fits new d) (hne : d.addr ≠ b.addr)
      (htaken : u₁ ++ (cut { d with free := false } new ++ v₁) = u₂ ++ b :: v₂) :
      Resized u b v new (d.addr + 40) (release u₂ b v₂)
  | fresh {u₂ v₂ : List Block} {a : Nat} (hbig : b.size < new) (hne : a ≠ b.addr)
      (htaken : u ++ b :: v ++ [⟨a, new, false⟩] = u₂ ++ b :: v₂) :
      Resized u b v new (a + 40) (release u₂ b v₂)

/-- A used block stays used where it is, and holds what it was cut to. -/
theorem cut_used (hused : b.free = false) (hsize : new ≤ b.size) :
    ∃ d ∈ cut b new, d.addr = b.addr ∧ d.free = false ∧ new ≤ d.size := by
  unfold cut
  split
  · exact ⟨b, by simp, rfl, hused, hsize⟩
  · exact ⟨{ b with size := new }, by simp, rfl, hused, Nat.le_refl new⟩

/-- The other used blocks stay when a block is freed. -/
theorem mem_release {c : Block} (hc : c ∈ u ++ b :: v) (hused : c.free = false) (hne : c ≠ b) :
    c ∈ release u b v := by
  have hmem : c ∈ used (release u b v) := by
    rw [used_release, List.mem_append, mem_used, mem_used]
    simp only [List.mem_append, List.mem_cons] at hc
    tauto
  exact (mem_used.mp hmem).1

/-- The block that is returned holds `new` bytes. -/
theorem Resized.large (hr : Resized u b v new q l') (hused : b.free = false) (hq : q ≠ 0) :
    ∃ d ∈ l', d.addr + 40 = q ∧ d.free = false ∧ new ≤ d.size := by
  cases hr with
  | shrink hsize =>
    obtain ⟨d, hd, haddr, hrest⟩ := cut_used hused hsize
    exact ⟨d, by simp [hd], by rw [haddr], hrest⟩
  | @grow w r sz hbig hv hfree hsz hroom =>
    obtain ⟨d, hd, haddr, hrest⟩ := cut_used (b := { b with size := sz }) hused hroom
    exact ⟨d, by simp [hd], by rw [haddr], hrest⟩
  | fail hbig => exact absurd rfl hq
  | @move u₁ v₁ u₂ v₂ d hbig hlist hfit hne htaken =>
    obtain ⟨d', hd', haddr, hfree, hsize⟩ := cut_used (b := { d with free := false }) rfl hfit.2
    refine ⟨d', mem_release (htaken ▸ by simp [hd']) hfree ?_, by rw [haddr], hfree, hsize⟩
    -- the new block is another one than `b`, so it is still there
    rintro rfl
    exact hne haddr.symm
  | @fresh u₂ v₂ a hbig hne htaken =>
    refine ⟨⟨a, new, false⟩, mem_release (htaken ▸ by simp) rfl ?_, rfl, rfl, Nat.le_refl new⟩
    rintro rfl
    exact hne rfl

/-! ## Growing -/

/-- The block list after the blocks `w` joined `b`. -/
theorem Holds.merge {w r : List Block} {sz : Nat} (h : Holds magic R s live (u ++ b :: (w ++ r)))
    (hfree : ∀ c ∈ w, c.free = true) (hsz : sz = b.size + extent 40 w) :
    Holds magic R { s with mem := mergeBlock s.mem b.addr sz (first r 0) } live
      (u ++ { b with size := sz } :: r) :=
  h.of_mem (merge_spec h.layout hsz)
    (by simp [payloads_append, payloads_cons, payloads_of_free hfree])

/-! ## Moving -/

/-- The block that an allocation takes: a free block is found, and what is too much of it is cut
off. -/
structure Taken (magic : Nat) (R : Region) (s : Heap) (live : Finset Nat) (l : List Block)
    (d : Block) (new : Nat) (l₁ : List Block) : Prop where
  holds : Holds magic R (takeBlock magic s d.addr new).1 (insert (d.addr + 40) live) l₁
  block : ∃ d' ∈ l₁, d'.addr = d.addr ∧ d'.free = false ∧ new ≤ d'.size
  used : ∀ c ∈ l, c.free = false → c ∈ l₁ ∧ c.addr ≠ d.addr
  frame : ∀ x, Clear l x → Clear l₁ x → (takeBlock magic s d.addr new).1.mem x = s.mem x

theorem Holds.taken {l r : List Block} {d : Block} (h : Holds magic R s live (l ++ d :: r))
    (hfit : Fits new d) :
    Taken magic R s live (l ++ d :: r) d new (l ++ (cut { d with free := false } new ++ r)) := by
  refine ⟨h.take hfit, ?_, fun c hc hused => ?_, fun x => takeBlock_clear h.layout hfit.2⟩
  · obtain ⟨d', hd', hrest⟩ := cut_used (b := { d with free := false }) rfl hfit.2
    exact ⟨d', by simp [hd'], hrest⟩
  · have hne : c ≠ d := by
      rintro rfl
      exact absurd (hused.symm.trans hfit.1) (by decide)
    refine ⟨?_, fun haddr => hne (h.layout.addr_inj hc (by simp) haddr)⟩
    simp only [List.mem_append, List.mem_cons] at hc ⊢
    tauto

section Move

variable {l u₂ v₂ : List Block} {d : Block}

/-- The copy stays inside the block that was taken. -/
theorem Taken.copy (ht : Taken magic R s live l d new (u₂ ++ b :: v₂)) (hbig : b.size < new) :
    Holds magic R
      { (takeBlock magic s d.addr new).1 with
        mem := memcpy (takeBlock magic s d.addr new).1.mem (d.addr + 40) (b.addr + 40) b.size }
      (insert (d.addr + 40) live) (u₂ ++ b :: v₂) := by
  obtain ⟨d', hd', haddr, -, hsize⟩ := ht.block
  refine ht.holds.write hd' fun x hx => memcpy_of_outside ?_
  omega

theorem Taken.copyAndFree (ht : Taken magic R s live l d new (u₂ ++ b :: v₂)) (hbig : b.size < new)
    (hused : b.free = false) (hne : d.addr ≠ b.addr) :
    Holds magic R
      (copyAndFree magic (takeBlock magic s d.addr new).1 (d.addr + 40) (b.addr + 40) b.size)
      (insert (d.addr + 40) (live.erase (b.addr + 40))) (release u₂ b v₂) := by
  have hfree := (ht.copy hbig).free hused
  rwa [Finset.erase_insert_of_ne (by omega)] at hfree

/-- A byte that no header covers changes by the copy only. -/
theorem Taken.moved_clear (ht : Taken magic R s live l d new (u₂ ++ b :: v₂))
    (hbig : b.size < new) {x : Nat} (hx : Clear (u₂ ++ b :: v₂) x) :
    (KernelC.Malloc.copyAndFree magic (takeBlock magic s d.addr new).1 (d.addr + 40)
      (b.addr + 40) b.size).mem x =
      memcpy (takeBlock magic s d.addr new).1.mem (d.addr + 40) (b.addr + 40) b.size x :=
  freeBlock_clear (ht.copy hbig).layout hx

end Move

/-! ## What a reallocation keeps -/

namespace ReallocTo

theorem holds (hr : ReallocTo magic s u b v new s' q l')
    (h : Holds magic R s live (u ++ b :: v)) (hused : b.free = false) {n : Nat} (hn : n ≠ 0) :
    Holds magic R s' (liveAfterRealloc live (b.addr + 40) n q) l' := by
  have hlive : b.addr + 40 ∈ live := (h.live _).mpr (mem_payloads.mpr ⟨b, by simp, hused, rfl⟩)
  have hsame := liveAfterRealloc_same (n := n) hlive (by omega)
  cases hr with
  | shrink hsize =>
    rw [hsame]
    exact h.shrink hsize
  | grow hbig hv hfree hsz hroom =>
    subst hv
    rw [hsame]
    exact (h.merge hfree hsz).retake hused hroom
  | fail hbig hnone =>
    rw [liveAfterRealloc_failed hn]
    exact h
  | move hbig hlist hfit htaken =>
    rw [liveAfterRealloc_moved (by omega)]
    rw [hlist] at h
    have ht := h.taken hfit
    have hne := (ht.used b (by rw [← hlist]; simp) hused).2
    rw [htaken] at ht
    exact ht.copyAndFree hbig hused (Ne.symm hne)

theorem resized (hr : ReallocTo magic s u b v new s' q l')
    (h : Holds magic R s live (u ++ b :: v)) (hused : b.free = false) :
    Resized u b v new q l' := by
  cases hr with
  | shrink hsize => exact .shrink hsize
  | grow hbig hv hfree hsz hroom => exact .grow hbig hv hfree hsz hroom
  | fail hbig hnone => exact .fail hbig
  | move hbig hlist hfit htaken =>
    rw [hlist] at h
    have hne := ((h.taken hfit).used b (by rw [← hlist]; simp) hused).2
    exact .move hbig hlist hfit (Ne.symm hne) htaken

/-- The other used blocks stay, with the bytes of their payloads. -/
theorem kept (hr : ReallocTo magic s u b v new s' q l') (h : Holds magic R s live (u ++ b :: v))
    (hused : b.free = false) {c : Block} (hc : c ∈ u ++ b :: v) (hcused : c.free = false)
    (hne : c ≠ b) :
    c ∈ l' ∧ ∀ x, c.addr + 40 ≤ x → x < c.addr + 40 + c.size → s'.mem x = s.mem x := by
  cases hr with
  | shrink hsize =>
    have hc' : c ∈ u ++ (cut b new ++ v) := by
      simp only [List.mem_append, List.mem_cons] at hc ⊢
      tauto
    exact ⟨hc', fun x h1 h2 => splitBlock_clear h.layout hsize (h.layout.clear hc h1 h2)
      ((splitBlock_cut h.layout hsize).clear hc' h1 h2)⟩
  | @grow w r sz hbig hv hfree hsz hroom =>
    subst hv
    have hmerged := h.merge hfree hsz
    have hcr : c ∈ u ∨ c ∈ r := by
      have : c ∉ w := fun hw => absurd (hcused.symm.trans (hfree c hw)) (by decide)
      simp only [List.mem_append, List.mem_cons] at hc
      tauto
    have hc' : c ∈ u ++ { b with size := sz } :: r := by
      simp only [List.mem_append, List.mem_cons]
      tauto
    have hc'' : c ∈ u ++ (cut { b with size := sz } new ++ r) := by
      simp only [List.mem_append]
      tauto
    refine ⟨hc'', fun x h1 h2 => ?_⟩
    have hx := h.layout.clear hc h1 h2
    have htake := hmerged.retake hused hroom
    rw [retake_clear hmerged.layout hused hroom (hmerged.layout.clear hc' h1 h2)
      (htake.layout.clear hc'' h1 h2)]
    rw [clear_append, clear_cons, clear_append] at hx
    exact merge_clear (clear_cons.mpr ⟨hx.2.1, hx.2.2.2⟩)
  | fail hbig hnone => exact ⟨hc, fun x h1 h2 => rfl⟩
  | @move u₁ v₁ u₂ v₂ d hbig hlist hfit htaken =>
    rw [hlist] at h hc
    have ht := h.taken hfit
    obtain ⟨hc', hcd⟩ := ht.used c hc hcused
    rw [htaken] at ht hc'
    refine ⟨mem_release hc' hcused hne, fun x h1 h2 => ?_⟩
    obtain ⟨d', hd', haddr, -, hsize⟩ := ht.block
    have hx := ht.holds.layout.clear hc' h1 h2
    have happart := ht.holds.layout.tiles.apart hc' hd' fun he => hcd (by rw [he, haddr])
    rw [ht.moved_clear hbig hx, memcpy_of_outside (by omega)]
    exact ht.frame x (h.layout.clear hc h1 h2) hx

/-- The data of the block goes with it. -/
theorem copied (hr : ReallocTo magic s u b v new s' q l') (h : Holds magic R s live (u ++ b :: v))
    (hused : b.free = false) (hq : q ≠ 0) {i : Nat} (hi : i < b.size) (hnew : i < new) :
    s'.mem (q + i) = s.mem (b.addr + 40 + i) := by
  have hb : b ∈ u ++ b :: v := by simp
  have hx := h.layout.clear hb (x := b.addr + 40 + i) (by omega) (by omega)
  cases hr with
  | shrink hsize =>
    obtain ⟨d, hd, haddr, -, hdsize⟩ := cut_used hused hsize
    exact splitBlock_clear h.layout hsize hx
      ((splitBlock_cut h.layout hsize).clear (b := d) (by simp [hd]) (by omega) (by omega))
  | @grow w r sz hbig hv hfree hsz hroom =>
    subst hv
    have hmerged := h.merge hfree hsz
    have htake := hmerged.retake hused hroom
    obtain ⟨d, hd, haddr, -, hdsize⟩ := cut_used (b := { b with size := sz }) hused hroom
    have hmid := hmerged.layout.clear (b := { b with size := sz }) (x := b.addr + 40 + i) (by simp)
      (by simp) (by dsimp only; omega)
    have hlast := htake.layout.clear (b := d) (x := b.addr + 40 + i) (by simp [hd])
      (by simp only [haddr]; omega) (by simp only [haddr]; omega)
    rw [retake_clear hmerged.layout hused hroom hmid hlast]
    rw [clear_append, clear_cons, clear_append] at hx
    exact merge_clear (clear_cons.mpr ⟨hx.2.1, hx.2.2.2⟩)
  | fail hbig hnone => exact absurd rfl hq
  | @move u₁ v₁ u₂ v₂ d hbig hlist hfit htaken =>
    rw [hlist] at h hb hx
    have ht := h.taken hfit
    obtain ⟨hb', hbd⟩ := ht.used b hb hused
    rw [htaken] at ht hb'
    obtain ⟨d', hd', haddr, -, hsize⟩ := ht.block
    have happart := ht.holds.layout.tiles.apart hb' hd' fun he => hbd (by rw [he, haddr])
    have hdx := ht.holds.layout.clear hd' (x := d.addr + 40 + i) (by omega) (by omega)
    rw [ht.moved_clear hbig hdx, memcpy_copied (by omega) hi]
    exact ht.frame _ hx (ht.holds.layout.clear hb' (by omega) (by omega))

end ReallocTo

end KernelC.Malloc
