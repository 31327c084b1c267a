import KernelC.Malloc.Kernel

/-!
# Where `heap_expand` puts its block

`simple_morecore` moves `brk` down by the bytes it is asked for, in 64-bit
arithmetic, and then compares with `_heap_start` only. A request for more than
`brk` wraps around and passes the test, with a block far above the region.

`mallocCalls R s n` are the states in which a call of `malloc` for `n` bytes
reaches `heap_expand`. If each of them had room (`Affords`), each block was put
below the last one, inside the region.

Results: `expandSound_iff` for one call of `heap_expand`, `expansion_inside` over
runs; `huge_request_wraps`.
-/

namespace KernelC.Malloc.Kernel

open Block

variable {R : Region} {s s' : KHeap} {c c' : Client KHeap} {size n : Nat}

/-! ## The calls of `heap_expand` -/

/-- The states in which the loop of `malloc` calls `heap_expand`. -/
def expandCalls (R : Region) (size : Nat) : Nat → KHeap → List KHeap
  | 0, _ => []
  | k + 1, s =>
    if findFit s.toHeap size = some 0 then
      s :: if (heapExpand R s size).2 then expandCalls R size k (heapExpand R s size).1 else []
    else []

def mallocCalls (R : Region) (s : KHeap) (n : Nat) : List KHeap :=
  if n = 0 then [] else expandCalls R (alignUp n) (2 ^ 64) s

/-- Those of `realloc`, which calls `malloc` for NULL and to move a block. -/
def reallocCalls (R : Region) (s : KHeap) (p n : Nat) : List KHeap :=
  let h := payloadToHeader p
  if p = 0 then mallocCalls R s n
  else if n = 0 ∨ get s.mem h .magic ≠ kernelMagic ∨ alignUp n ≤ get s.mem h .size then []
  else if hasRoom s.mem h (alignUp n) = some false then mallocCalls R s (alignUp n)
  else []

/-- `simple_morecore` returns NULL and changes nothing, or moves `brk` down by just the bytes
needed; the block that `heap_expand` makes of them lies in the region. -/
def ExpandSound (R : Region) (s : KHeap) (size : Nat) : Prop :=
  let need := alignUp (wadd size 40)
  simpleMorecore R s need = (s, 0) ∨
    ∃ p, simpleMorecore R s need = ({ s with brk := p }, p) ∧
      heapExpand R s size = (appendBlock s p (wsub need 40), true) ∧
      R.lo ≤ p ∧ p + need = s.brk ∧ p + 40 + wsub need 40 ≤ R.hi

/-- The bytes and a header fit below `brk`, or the request is so large that it is refused even
after the wrap. -/
def Affords (R : Region) (s : KHeap) (size : Nat) : Prop :=
  size + 40 ≤ s.brk ∨ s.brk + 2 ^ 64 < R.lo + size + 40

instance (R : Region) (s : KHeap) (size : Nat) : Decidable (Affords R s size) :=
  inferInstanceAs (Decidable (_ ∨ _))

/-- Where `brk` is as long as nothing wrapped. -/
def BrkInside (R : Region) (s : KHeap) : Prop := R.lo ≤ s.brk ∧ s.brk ≤ R.hi

theorem BrkInside.of_eq (hb : BrkInside R s) (h : s'.brk = s.brk) : BrkInside R s' := by
  unfold BrkInside at *
  rwa [h]

theorem need_eq (hsize : size % 8 = 0) (h : size + 40 < 2 ^ 64) :
    alignUp (wadd size 40) = size + 40 := by
  unfold alignUp
  rw [wadd_eq h, wadd_eq (by omega)]
  omega

theorem need_wrapped (hsize : size % 8 = 0) (hlt : size < 2 ^ 64) (h : 2 ^ 64 ≤ size + 40) :
    alignUp (wadd size 40) = size + 40 - 2 ^ 64 := by
  unfold alignUp wadd
  omega

theorem simpleMorecore_cases (R : Region) (s : KHeap) (size : Nat) :
    let need := alignUp (wadd size 40)
    (wsub s.brk need < R.lo ∧ simpleMorecore R s need = (s, 0)) ∨
    (R.lo ≤ wsub s.brk need ∧
      simpleMorecore R s need = ({ s with brk := wsub s.brk need }, wsub s.brk need)) := by
  unfold simpleMorecore
  simp only [alignUp_alignUp]
  by_cases hlt : wsub s.brk (alignUp (wadd size 40)) < R.lo
  · exact .inl ⟨hlt, if_pos hlt⟩
  · exact .inr ⟨Nat.le_of_not_lt hlt, if_neg hlt⟩

/-- One call of `heap_expand`. -/
theorem expandSound_iff (hb : BrkInside R s) (hsize : size % 8 = 0) (hlt : size < 2 ^ 64) :
    ExpandSound R s size ↔ Affords R s size := by
  obtain ⟨hlo, hhi⟩ := hb
  have h1 := R.lo_ge
  have h2 := R.hi_lt
  unfold ExpandSound Affords
  dsimp only
  rcases simpleMorecore_cases R s size with ⟨hrefused, hret⟩ | ⟨hge, hret⟩
  · refine iff_of_true (.inl hret) ?_
    rcases Nat.lt_or_ge (size + 40) (2 ^ 64) with hsmall | hbig
    · rw [need_eq hsize hsmall] at hrefused
      unfold wsub at hrefused
      omega
    · rw [need_wrapped hsize hlt hbig] at hrefused
      unfold wsub at hrefused
      omega
  · obtain ⟨-, hexp⟩ := (heapExpand_cases R s size).resolve_left fun hno => by omega
    rw [hret, hexp]
    rcases Nat.lt_or_ge (size + 40) (2 ^ 64) with hsmall | hbig
    · rw [need_eq hsize hsmall] at hge ⊢
      constructor
      · rintro (hnull | ⟨p, heq, -, -, hsum, -⟩)
        · have := (Prod.mk.inj hnull).2
          omega
        · rw [Prod.mk.injEq] at heq
          unfold wsub at heq
          omega
      · intro hroom
        have hle : size + 40 ≤ s.brk := by omega
        rw [wsub_eq hle (by omega)] at hge ⊢
        rw [wsub_eq (a := size + 40) (by omega) hsmall]
        exact .inr ⟨_, rfl, rfl, hge, by omega, by omega⟩
    · rw [need_wrapped hsize hlt hbig] at hge ⊢
      have hsub : wsub (size + 40 - 2 ^ 64) 40 = size := by
        unfold wsub
        omega
      rw [hsub]
      refine iff_of_false ?_ ?_
      · rintro (hnull | ⟨p, -, -, -, -, hin⟩)
        · have := (Prod.mk.inj hnull).2
          omega
        · omega
      · unfold wsub at hge
        omega

/-! ## Over the loop of `malloc` -/

theorem ExpandSound.brk (h : ExpandSound R s size) (hb : BrkInside R s) :
    BrkInside R (heapExpand R s size).1 := by
  rcases h with hnull | ⟨p, -, hret, hlo, hsum, -⟩
  · have hret : heapExpand R s size = (s, false) := by
      unfold heapExpand
      simp only [hnull, if_true]
    rwa [hret]
  · rw [hret]
    have := hb.2
    exact ⟨hlo, by show p ≤ R.hi; omega⟩

/-- As long as all calls before had room, a call is sound exactly when it has room. -/
theorem expandCalls_sound_iff (hb : BrkInside R s) (hsize : size % 8 = 0) (hlt : size < 2 ^ 64)
    (k : Nat) :
    (∀ t ∈ expandCalls R size k s, ExpandSound R t size) ↔
      ∀ t ∈ expandCalls R size k s, Affords R t size := by
  induction k generalizing s with
  | zero => simp [expandCalls]
  | succ k ih =>
    rw [expandCalls]
    split
    · rw [List.forall_mem_cons, List.forall_mem_cons, ← expandSound_iff hb hsize hlt]
      refine and_congr_right fun hsound => ?_
      split
      · exact ih (hsound.brk hb)
      · simp
    · simp

theorem mallocLoop_brk {k fit : Nat} (hb : BrkInside R s) (hsize : size % 8 = 0)
    (hlt : size < 2 ^ 64) (hroom : ∀ t ∈ expandCalls R size k s, Affords R t size)
    (hret : mallocLoop R size k s = some (s', fit)) : BrkInside R s' := by
  induction k generalizing s with
  | zero => cases hret
  | succ k ih =>
    rw [mallocLoop] at hret
    obtain ⟨fit', hfind, hret⟩ := Option.bind_eq_some_iff.mp hret
    split at hret
    · cases hret
      exact hb
    · next hnull =>
      rw [not_ne_iff] at hnull
      subst hnull
      rw [expandCalls, if_pos hfind, List.forall_mem_cons] at hroom
      obtain ⟨hs, hrest⟩ := hroom
      have hb' := ((expandSound_iff hb hsize hlt).mpr hs).brk hb
      dsimp only at hret
      split at hret
      · next hgrown =>
        rw [if_pos hgrown] at hrest
        exact ih hb' hrest hret
      · cases hret
        exact hb'

theorem malloc_brk {q : Nat} (hb : BrkInside R s)
    (hroom : ∀ t ∈ mallocCalls R s n, Affords R t (alignUp n))
    (hret : malloc R s n = some (s', q)) : BrkInside R s' := by
  unfold malloc at hret
  unfold mallocCalls at hroom
  split at hret
  · cases hret
    exact hb
  · next hn =>
    rw [if_neg hn] at hroom
    obtain ⟨⟨t, fit⟩, hloop, hret⟩ := Option.map_eq_some_iff.mp hret
    have ht := mallocLoop_brk hb (alignUp_mod n) (alignUp_lt n) hroom hloop
    dsimp only at hret
    split at hret
    · cases hret
      exact ht
    · rw [Prod.mk.injEq] at hret
      rw [← hret.1]
      exact ht

theorem growInPlace_brk {h new : Nat} (hret : growInPlace s h new = some s') : s'.brk = s.brk := by
  unfold growInPlace at hret
  obtain ⟨r, -, rfl⟩ := Option.map_eq_some_iff.mp hret
  rfl

theorem moveBlock_brk {p new q : Nat} (hb : BrkInside R s)
    (hroom : ∀ t ∈ mallocCalls R s new, Affords R t (alignUp new))
    (hret : moveBlock R s p new = some (s', q)) : BrkInside R s' := by
  unfold moveBlock at hret
  obtain ⟨⟨t, q'⟩, hmalloc, hret⟩ := Option.map_eq_some_iff.mp hret
  have ht := malloc_brk hb hroom hmalloc
  dsimp only at hret
  split at hret
  · cases hret
    exact ht
  · rw [Prod.mk.injEq] at hret
    rw [← hret.1]
    exact ht

theorem realloc_brk {p q : Nat} (hb : BrkInside R s)
    (hroom : ∀ t ∈ reallocCalls R s p n, Affords R t (alignUp n))
    (hret : realloc R s p n = some (s', q)) : BrkInside R s' := by
  unfold realloc at hret
  unfold reallocCalls at hroom
  dsimp only at hroom hret
  split at hret
  · next hp =>
    rw [if_pos hp] at hroom
    exact malloc_brk hb hroom hret
  next hp =>
  rw [if_neg hp] at hroom
  split at hret
  · cases hret
    exact hb
  next hn =>
  split at hret
  · cases hret
    exact hb
  next hmagic =>
  split at hret
  · rw [Option.some.injEq, Prod.mk.injEq] at hret
    rw [← hret.1]
    exact hb.of_eq rfl
  next hsize =>
  have hmove : ¬ (n = 0 ∨ get s.mem (payloadToHeader p) .magic ≠ kernelMagic ∨
      alignUp n ≤ get s.mem (payloadToHeader p) .size) :=
    not_or.mpr ⟨hn, not_or.mpr ⟨hmagic, hsize⟩⟩
  rw [if_neg hmove] at hroom
  obtain ⟨room, hroom', hret⟩ := Option.bind_eq_some_iff.mp hret
  split at hret
  · obtain ⟨t, hgrow, hret⟩ := Option.map_eq_some_iff.mp hret
    rw [Prod.mk.injEq] at hret
    rw [← hret.1]
    exact hb.of_eq (growInPlace_brk hgrow)
  · next hfalse =>
    rw [if_pos (by rw [hroom', Bool.eq_false_iff.mpr hfalse])] at hroom
    refine moveBlock_brk hb ?_ hret
    rwa [alignUp_alignUp]

/-! ## Over runs -/

/-- Every call of `heap_expand` that the operation makes has room. -/
def Roomy (R : Region) (c : Client KHeap) : Op → Prop
  | .malloc n => ∀ t ∈ mallocCalls R c.heap n, Affords R t (alignUp n)
  | .realloc p n => ∀ t ∈ reallocCalls R c.heap p n, Affords R t (alignUp n)
  | .free _ => True
  | .write _ _ _ => True

instance (R : Region) (c : Client KHeap) : (o : Op) → Decidable (Roomy R c o)
  | .malloc n => inferInstanceAs (Decidable (∀ t ∈ mallocCalls R c.heap n, _))
  | .realloc p n => inferInstanceAs (Decidable (∀ t ∈ reallocCalls R c.heap p n, _))
  | .free _ => inferInstanceAs (Decidable True)
  | .write _ _ _ => inferInstanceAs (Decidable True)

theorem kernelStart_brk (R : Region) (m : Mem) : (kernelStart R m).heap.brk = R.hi := by
  have h1 := R.lo_ge
  have h2 := R.room
  have h3 := R.hi_lt
  unfold kernelStart mallocInit
  rw [if_neg (by omega)]
  dsimp only
  rw [wadd_eq (by omega)]
  omega

theorem brk_run {m : Mem} {os : List Op}
    (hr : Run (kernel R).step (fun c o => (kernel R).Permitted c o ∧ Roomy R c o)
      (kernelStart R m) os c) : BrkInside R c.heap := by
  refine hr.invariant (I := fun c => BrkInside R c.heap) ?_ ?_
  · rintro c o c' hb ⟨-, hroom⟩ hstep
    cases o with
    | malloc n =>
      obtain ⟨⟨t, q⟩, hret, rfl⟩ := Option.map_eq_some_iff.mp hstep
      exact malloc_brk hb hroom hret
    | free p =>
      cases hstep
      exact hb
    | realloc p n =>
      obtain ⟨⟨t, q⟩, hret, rfl⟩ := Option.map_eq_some_iff.mp hstep
      exact realloc_brk hb hroom hret
    | write p off bs =>
      cases hstep
      exact hb
  · have := R.room
    rw [BrkInside, kernelStart_brk]
    omega

/-- In every state that is reached with room for each call of `heap_expand`, the calls of
`heap_expand` that `malloc` makes for any `n` are sound exactly when they have room. -/
theorem expansion_inside (R : Region) (m : Mem) {os : List Op} {c : Client KHeap}
    (hr : Run (kernel R).step (fun c o => (kernel R).Permitted c o ∧ Roomy R c o)
      (kernelStart R m) os c) (n : Nat) :
    BrkInside R c.heap ∧
      ((∀ t ∈ mallocCalls R c.heap n, ExpandSound R t (alignUp n)) ↔
        ∀ t ∈ mallocCalls R c.heap n, Affords R t (alignUp n)) := by
  have hb := brk_run hr
  refine ⟨hb, ?_⟩
  unfold mallocCalls
  split
  · simp
  · exact expandCalls_sound_iff hb (alignUp_mod n) (alignUp_lt n) _

/-- One block takes the whole region, and the next one is put at its top. -/
theorem expansion_inside_full :
    ∃ c, Run (kernel region128).step (fun c o => (kernel region128).Permitted c o ∧
        Roomy region128 c o) (kernelStart region128 fun _ => 0) [.malloc 0x7ffffd8] c ∧
      (mallocCalls region128 c.heap 8).length = 1 ∧
      ∀ t ∈ mallocCalls region128 c.heap 8, ExpandSound region128 t 8 := by
  have hexec : (exec (kernel region128).step (fun c o => (kernel region128).Permitted c o ∧
      Roomy region128 c o) (kernelStart region128 fun _ => 0) [.malloc 0x7ffffd8]).map
        (fun c : Client KHeap => ((mallocCalls region128 c.heap 8).length,
          decide (∀ t ∈ mallocCalls region128 c.heap 8, Affords region128 t 8))) =
      some (1, true) := by
    decide +kernel
  obtain ⟨c, hc, heq⟩ := Option.map_eq_some_iff.mp hexec
  simp only [Prod.mk.injEq, decide_eq_true_eq] at heq
  exact ⟨c, Run.of_exec hc, heq.1,
    (expansion_inside region128 (fun _ => 0) (Run.of_exec hc) 8).2.mpr heq.2⟩

theorem mem_mallocCalls (hn : n ≠ 0) (hfind : findFit s.toHeap (alignUp n) = some 0) :
    s ∈ mallocCalls R s n := by
  obtain ⟨k, hk⟩ : ∃ k, 2 ^ 64 = k + 1 := ⟨2 ^ 64 - 1, by omega⟩
  rw [mallocCalls, if_neg hn, hk, expandCalls, if_pos hfind]
  exact List.mem_cons_self

/-- A request for 2^63 bytes on a fresh heap: `brk` ends up above 2^63. -/
theorem huge_request_wraps :
    let s := (kernelStart region128 fun _ => 0).heap
    s ∈ mallocCalls region128 s (2 ^ 63) ∧
      (simpleMorecore region128 s (alignUp (wadd (alignUp (2 ^ 63)) 40))).2 =
        0x80000000081fffd8 ∧
      ¬ ExpandSound region128 s (alignUp (2 ^ 63)) := by
  refine ⟨mem_mallocCalls (by decide) (by decide +kernel), by decide +kernel, ?_⟩
  have hb : BrkInside region128 (kernelStart region128 fun _ => 0).heap :=
    brk_run (Run.nil _)
  rw [expandSound_iff hb (alignUp_mod _) (alignUp_lt _)]
  decide +kernel

end KernelC.Malloc.Kernel
