import KernelC.Malloc.Basic

/-!
# The block list in memory

`Chain magic R e m l`: the memory `m` holds the headers of the blocks `l`, linked
one to the next, and no two of them overlap. `Layout magic R m l`: the blocks tile
the region `R` as well, as they do until `heap_expand` puts one into another.

* The edits of the list: a block is cut in two (`splitBlock_chain`), swallows
  those behind it (`merge_chain`, `absorb_chain`), or changes its free flag
  (`putFree_chain`). Each exchanges a window of blocks and leaves the rest alone
  (`Chain.replace`).
* The walks: `findFit_cases` and `stats_eq`.
-/

namespace KernelC.Malloc

open Block

/-- A region that an allocator manages: `_heap_start` to `_heap_end`, or
`_user_start` to `_user_end`. The linker script places every section from
1 MiB on, and addresses are 64-bit numbers. -/
structure Region where
  lo : Nat
  hi : Nat
  lo_ge : 0x100000 ≤ lo
  room : lo + 48 ≤ hi
  hi_lt : hi < 2 ^ 64

/-- 128 MiB, as the linker script reserves for each of the two heaps. -/
def region128 : Region := ⟨0x200000, 0x8200000, by decide, by decide, by decide⟩

/-! ## Header fields -/

theorem Field.fits (f : Field) : f.offset + f.width ≤ 40 := by
  cases f <;> decide

theorem get_lt (m : Mem) (a : Nat) (f : Field) : get m a f < 256 ^ f.width := readLE_lt _ _ _

theorem get_congr {m m' : Mem} {a : Nat} (f : Field)
    (h : ∀ x, a ≤ x → x < a + 40 → m' x = m x) : get m' a f = get m a f := by
  have hf := f.fits
  exact readLE_congr fun x h1 h2 => h x (by omega) (by omega)

theorem put_of_outside {m : Mem} {a v x : Nat} {f : Field} (h : x < a ∨ a + 40 ≤ x) :
    put m a f v x = m x := by
  have hf := f.fits
  exact writeLE_of_outside (by omega)

/-- A read of the header that a field was written in. -/
@[simp] theorem get_put (m : Mem) (a v : Nat) (f g : Field) :
    get (put m a f v) a g = if f = g then v % 256 ^ f.width else get m a g := by
  by_cases hfg : f = g
  · subst hfg
    rw [if_pos rfl]
    exact readLE_writeLE_same _ _ _ _
  · rw [if_neg hfg]
    refine readLE_writeLE_of_disjoint ?_
    cases f <;> cases g <;> simp [Field.offset, Field.width] at hfg ⊢

theorem put_put (m : Mem) (a v v' : Nat) (f : Field) :
    put (put m a f v) a f v' = put m a f v' :=
  writeLE_writeLE _ _ _ _ _

/-- A read of another header. -/
theorem get_put_apart {m : Mem} {a b v : Nat} {f g : Field} (h : b + 40 ≤ a ∨ a + 40 ≤ b) :
    get (put m a f v) b g = get m b g :=
  get_congr g fun x h1 h2 => put_of_outside (by omega)

theorem get_linkPrev_same {m : Mem} {n v : Nat} {g : Field} (hn : n ≠ 0) :
    get (linkPrev m n v) n g = if Field.prev = g then v % 256 ^ 8 else get m n g := by
  unfold linkPrev
  rw [if_pos hn, get_put]
  rfl

theorem get_linkPrev_apart {m : Mem} {n b v : Nat} {g : Field}
    (h : n = 0 ∨ b + 40 ≤ n ∨ n + 40 ≤ b) : get (linkPrev m n v) b g = get m b g := by
  unfold linkPrev
  split
  · exact get_put_apart (by omega)
  · rfl

/-- The header of `b` is in memory, with the links `p` and `n`. -/
structure Stored (magic : Nat) (m : Mem) (b : Block) (p n : Nat) : Prop where
  magic : get m b.addr .magic = magic
  size : get m b.addr .size = b.size
  free : get m b.addr .free = b.free.toNat
  prev : get m b.addr .prev = p
  next : get m b.addr .next = n

theorem Stored.congr {magic p n : Nat} {m m' : Mem} {b : Block} (h : Stored magic m b p n)
    (hm : ∀ f, get m' b.addr f = get m b.addr f) : Stored magic m' b p n :=
  ⟨(hm _).trans h.magic, (hm _).trans h.size, (hm _).trans h.free, (hm _).trans h.prev,
    (hm _).trans h.next⟩

/-- The headers of the blocks `l` are linked in memory and do not overlap. -/
structure Chain (magic : Nat) (R : Region) (e : Nat) (m : Mem) (l : List Block) : Prop where
  linked : Linked (Stored magic m) 0 l 0
  spread : Spread 40 R.lo e l
  lt : e < 2 ^ 64

/-- The blocks `l` tile the region and are linked in memory. -/
structure Layout (magic : Nat) (R : Region) (m : Mem) (l : List Block) : Prop where
  tiles : Tiles 40 R.lo l R.hi
  linked : Linked (Stored magic m) 0 l 0

/-- The `k` bytes from `a` on overlap no header of `l`. -/
def Misses (l : List Block) (a k : Nat) : Prop := ∀ c ∈ l, c.addr + 40 ≤ a ∨ a + k ≤ c.addr

instance (l : List Block) (a k : Nat) : Decidable (Misses l a k) :=
  inferInstanceAs (Decidable (∀ c ∈ l, _))

variable {magic e : Nat} {R : Region} {m m' : Mem} {s : Heap} {l r w t : List Block} {b : Block}

theorem Layout.chain (h : Layout magic R m l) : Chain magic R R.hi m l :=
  ⟨h.linked, h.tiles.spread, R.hi_lt⟩

/-! ## Chains -/

namespace Chain

theorem bounds (h : Chain magic R e m l) (hb : b ∈ l) :
    0x100000 ≤ b.addr ∧ R.lo ≤ b.addr ∧ b.addr + 40 + b.size ≤ e ∧ e < 2 ^ 64 := by
  have h1 := h.spread.bounds hb
  have h2 := R.lo_ge
  have h3 := h.lt
  omega

theorem addr_ne_zero (h : Chain magic R e m l) : ∀ b ∈ l, b.addr ≠ 0 := by
  intro b hb
  have := h.bounds hb
  omega

/-- The list is short enough for every walk to end. -/
theorem length_lt (h : Chain magic R e m l) : l.length < 2 ^ 64 := by
  have h1 := h.spread.length_le
  have h2 := h.lt
  omega

/-- A block of the list, with its links. -/
theorem stored (h : Chain magic R e m (l ++ b :: r)) :
    Stored magic m b (last 0 l) (first r 0) :=
  (linked_append.mp h.linked).2.1

theorem magic_lt (h : Chain magic R e m (l ++ b :: r)) : magic < 256 ^ 4 := by
  rw [← h.stored.magic]
  exact get_lt m b.addr .magic

theorem first_lt (h : Chain magic R e m (l ++ r)) : first r 0 < 2 ^ 64 := by
  cases r with
  | nil => exact Nat.two_pow_pos 64
  | cons c t =>
    have hc := h.bounds (b := c) (by simp)
    rw [first_cons]
    omega

/-- The header of the first of the blocks `r`, if there is one, overlaps no other. -/
theorem first_cases (h : Chain magic R e m (l ++ r)) {c : Block} (hc : c ∈ l ∨ c ∈ r.tail) :
    first r 0 = 0 ∨ c.addr + 40 ≤ first r 0 ∨ first r 0 + 40 ≤ c.addr := by
  cases r with
  | nil => exact .inl rfl
  | cons a t => exact .inr (h.spread.header hc)

/-- A write that touches no header of the list. -/
theorem write (h : Chain magic R e m l) {a k : Nat} (hmiss : Misses l a k)
    (hm : ∀ x, x < a ∨ a + k ≤ x → m' x = m x) : Chain magic R e m' l := by
  refine ⟨h.linked.mono fun b hb _ _ hs => hs.congr fun f => ?_, h.spread, h.lt⟩
  have := hmiss b hb
  exact get_congr f fun x h1 h2 => hm x (by omega)

end Chain

/-- An edit of the blocks `w` in the middle of the list: it leaves the headers
before them alone, and of the headers behind them it changes only the back link
of the first one. -/
theorem Chain.replace (h : Chain magic R e m (l ++ (w ++ r)))
    (hfirst : ∀ k, first t k = first w k)
    (hspread : Spread 40 R.lo e (l ++ (t ++ r)))
    (hl : ∀ c ∈ l, ∀ f, get m' c.addr f = get m c.addr f)
    (hw : Linked (Stored magic m') (last 0 l) t (first r 0))
    (hhead : ∀ c u, r = c :: u → ∀ f, get m' c.addr f =
      if Field.prev = f then last (last 0 l) t else get m c.addr f)
    (htail : ∀ c ∈ r.tail, ∀ f, get m' c.addr f = get m c.addr f) :
    Chain magic R e m' (l ++ (t ++ r)) := by
  refine ⟨h.linked.replace hfirst (fun c hc q k hs => hs.congr (hl c hc)) hw ?_, hspread, h.lt⟩
  have hr := (linked_append.mp (linked_append.mp h.linked).2).2
  refine hr.relink (fun c u k heq hs => ?_) fun c hc q k hs => hs.congr (htail c hc)
  have hc := hhead c u heq
  exact ⟨by simpa [hc] using hs.magic, by simpa [hc] using hs.size, by simpa [hc] using hs.free,
    by simp [hc], by simpa [hc] using hs.next⟩

/-- A block is cut into two, the second with its header over no other one. -/
theorem Chain.spread_split (h : Chain magic R e m (l ++ b :: r)) {req : Nat}
    (hreq : req + 48 ≤ b.size) (hmiss : Misses (l ++ r) (b.addr + 40 + req) 40) :
    Spread 40 R.lo e
      (l ++ ({ b with size := req } :: [⟨b.addr + 40 + req, b.size - req - 40, true⟩] ++ r)) := by
  have hbd := h.bounds (b := b) (by simp)
  have hcut : Spread 40 R.lo e ((l ++ [{ b with size := req }]) ++ r) := by
    have hsub := h.spread.sublist (t := { b with size := req } :: r) (List.Sublist.refl _)
      (by simp only [extent_cons]; omega) fun hs => by
        rw [spans_cons] at hs ⊢
        exact ⟨by dsimp only; omega, hs.2⟩
    simpa using hsub
  have hins : Spread 40 R.lo e _ :=
    hcut.insert (b := ⟨b.addr + 40 + req, b.size - req - 40, true⟩) (by dsimp only; omega) ?_ ?_
  · simpa using hins
  · simp only [List.mem_append, List.mem_singleton]
    rintro c ((hc | rfl) | hc)
    · exact hmiss c (by simp [hc])
    · exact .inl (by dsimp only; omega)
    · exact hmiss c (by simp [hc])
  · rw [List.append_assoc]
    refine h.spread.spans.replace ?_ fun hs => ?_
    · simp only [List.cons_append, List.nil_append, extent_cons]
      omega
    · rw [spans_cons] at hs
      simp only [List.cons_append, List.nil_append, spans_cons, extent_cons]
      refine ⟨by omega, by omega, hs.2⟩

/-- `split_block` cuts a free block off the end of a block. Its header is not put
over another one. -/
theorem splitBlock_chain (h : Chain magic R e s.mem (l ++ b :: r)) {req : Nat}
    (hreq : req + 48 ≤ b.size)
    (hmiss : Misses (l ++ r) (b.addr + 40 + req) 40) :
    Chain magic R e (splitBlock magic s b.addr req).mem
      (l ++ { b with size := req } :: ⟨b.addr + 40 + req, b.size - req - 40, true⟩ :: r) := by
  have hb := h.stored
  have hbd := h.bounds (b := b) (by simp)
  have hmag := h.magic_lt
  have h' : Chain magic R e s.mem ((l ++ [b]) ++ r) := by simpa using h
  have hfr := h'.first_cases (c := b) (by simp)
  have hflt := h'.first_lt
  have hfnew : first r 0 = 0 ∨ first r 0 + 40 ≤ b.addr + 40 + req ∨
      b.addr + 40 + req + 40 ≤ first r 0 := by
    cases r with
    | nil => exact .inl rfl
    | cons c t => exact .inr (hmiss c (by simp))
  unfold splitBlock headerToPayload
  rw [hb.size, wadd_eq (by omega), if_neg (by omega), wadd_eq (a := b.addr) (by omega),
    wadd_eq (by omega)]
  -- every assignment of the source with the value it stores
  simp only [get_put, reduceIte]
  simp (disch := omega) only [get_put_apart, hb.size, hb.next, Nat.mod_eq_of_lt, Field.width,
    wsub_eq]
  refine Chain.replace (w := [b]) (t := [_, _]) h (fun k => rfl) ?_ ?_ ?_ ?_ ?_
  · exact h.spread_split hreq hmiss
  · intro c hc f
    have hcb := h.spread.header (.inl hc)
    have hcn := hmiss c (by simp [hc])
    have hcf := h'.first_cases (c := c) (by simp [hc])
    simp (disch := omega) only [get_put_apart, get_linkPrev_apart]
  · refine ⟨⟨?_, ?_, ?_, ?_, ?_⟩, ⟨?_, ?_, ?_, ?_, ?_⟩, trivial⟩ <;>
    simp (disch := omega) [get_put_apart, get_linkPrev_apart, hb.magic, hb.free, hb.prev,
      Nat.mod_eq_of_lt, Field.width]
  · rintro c t rfl f
    rw [first_cons] at hfr hfnew ⊢
    have hc := h.bounds (b := c) (by simp)
    simp (disch := omega) only [get_put_apart, get_linkPrev_same, Nat.mod_eq_of_lt, last_cons,
      last_nil]
  · intro c hc f
    have hcb := h.spread.header (.inr (List.mem_of_mem_tail hc))
    have hcn := hmiss c (by simp [List.mem_of_mem_tail hc])
    have hcf := h'.first_cases (.inr hc)
    simp (disch := omega) only [get_put_apart, get_linkPrev_apart]

/-- The block `a` takes over the blocks `w` that follow it. -/
theorem merge_chain {a : Block} {sz : Nat} (h : Chain magic R e m (l ++ a :: (w ++ r)))
    (hsz : sz = a.size + extent 40 w) :
    Chain magic R e
      (linkPrev (put (put m a.addr .size sz) a.addr .next (first r 0)) (first r 0) a.addr)
      (l ++ { a with size := sz } :: r) := by
  have ha := h.stored
  have had := h.bounds (b := a) (by simp)
  have h' : Chain magic R e m ((l ++ a :: w) ++ r) := by simpa using h
  have hfr := h'.first_cases (c := a) (by simp)
  have hflt := h'.first_lt
  have hszlt : a.addr + 40 + sz ≤ e := by
    have := h.spread.spans.bounds
    rw [extent_append] at this
    omega
  refine Chain.replace (w := a :: w) (t := [{ a with size := sz }]) (by simpa using h)
    (fun k => rfl) ?_ ?_ ?_ ?_ ?_
  · refine h.spread.sublist ?_ ?_ fun hs => ?_
    · simp
    · simp only [List.cons_append, List.nil_append, extent_cons, extent_append]
      omega
    · rw [spans_cons, extent_append] at hs
      simp only [List.cons_append, List.nil_append, spans_cons]
      exact ⟨by omega, hs.2.of_append⟩
  · intro c hc f
    have hca := h.spread.header (.inl hc)
    have hcf := h'.first_cases (c := c) (by simp [hc])
    simp (disch := omega) only [get_put_apart, get_linkPrev_apart]
  · refine ⟨⟨?_, ?_, ?_, ?_, ?_⟩, trivial⟩ <;>
    simp (disch := omega) [get_linkPrev_apart, ha.magic, ha.free, ha.prev, Nat.mod_eq_of_lt,
      Field.width]
  · rintro c t rfl f
    rw [first_cons] at hfr ⊢
    have hc := h'.bounds (b := c) (by simp)
    simp (disch := omega) only [get_put_apart, get_linkPrev_same, Nat.mod_eq_of_lt, last_cons,
      last_nil]
  · intro c hc f
    have hca := h.spread.header (c := c) (by simp [List.mem_of_mem_tail hc])
    have hcf := h'.first_cases (.inr hc)
    simp (disch := omega) only [get_put_apart, get_linkPrev_apart]

theorem absorb_chain {a n : Block} (h : Chain magic R e m (l ++ a :: n :: r)) :
    Chain magic R e (absorb m a.addr n.addr)
      (l ++ { a with size := a.size + 40 + n.size } :: r) := by
  have ha := h.stored
  have hn : Stored magic m n (last 0 (l ++ [a])) (first r 0) :=
    Chain.stored (l := l ++ [a]) (by simpa using h)
  have had := h.bounds (b := a) (by simp)
  have hspan := h.spread.spans.bounds
  have han := h.spread.header (c := n) (by simp)
  rw [extent_cons] at hspan
  unfold absorb
  simp (disch := omega) only [get_put_apart, ha.size, hn.size, hn.next, wadd_eq]
  refine merge_chain (w := [n]) h ?_
  rw [extent_cons, extent_nil]
  omega

theorem putFree_chain (h : Chain magic R e m (l ++ b :: r)) (v : Bool) :
    Chain magic R e (put m b.addr .free v.toNat) (l ++ { b with free := v } :: r) := by
  have hb := h.stored
  have h' : Chain magic R e m ((l ++ [b]) ++ r) := by simpa using h
  refine Chain.replace (w := [b]) (t := [{ b with free := v }]) h (fun k => rfl) ?_ ?_ ?_ ?_ ?_
  · refine h.spread.sublist (List.Sublist.refl _) ?_ fun hs => ?_
    · simp
    · rw [List.cons_append, List.nil_append, spans_cons]
      exact spans_cons.mp hs
  · intro c hc f
    have hcb := h.spread.header (.inl hc)
    simp (disch := omega) only [get_put_apart]
  · refine ⟨⟨?_, ?_, ?_, ?_, ?_⟩, trivial⟩ <;>
    simp [hb.magic, hb.size, hb.prev, hb.next, Field.width]
    cases v <;> decide
  · rintro c t rfl f
    have hbc := h.spread.header (c := c) (by simp)
    have hc : get m c.addr .prev = b.addr := by
      have := Chain.stored (l := l ++ [b]) (b := c) (r := t) (by simpa using h)
      simpa [last_append] using this.prev
    rw [get_put_apart (by omega)]
    split
    · next hf => rw [← hf, hc]; rfl
    · rfl
  · intro c hc f
    have hcb := h.spread.header (.inr (List.mem_of_mem_tail hc))
    simp (disch := omega) only [get_put_apart]

/-! ## Tilings -/

namespace Layout

theorem bounds (h : Layout magic R m l) (hb : b ∈ l) :
    0x100000 ≤ b.addr ∧ R.lo ≤ b.addr ∧ b.addr + 40 + b.size ≤ R.hi ∧ R.hi < 2 ^ 64 := by
  have h1 := h.tiles.bounds hb
  have h2 := R.lo_ge
  have h3 := R.hi_lt
  omega

/-- A block of the list, with its links. -/
theorem stored (h : Layout magic R m (l ++ b :: r)) :
    Stored magic m b (last 0 l) (first r 0) :=
  h.chain.stored

/-- What is before a block lies below it. -/
theorem before (h : Layout magic R m (l ++ r)) {a c : Block} (ha : a ∈ l) (hc : c ∈ r) :
    a.addr + 40 + a.size ≤ c.addr :=
  (List.pairwise_append.mp h.tiles.pairwise).2.2 a ha c hc

/-- The first of the blocks `r`, if there is one, lies behind a block before
them. -/
theorem first_cases (h : Layout magic R m (l ++ r)) (hb : b ∈ l) :
    first r 0 = 0 ∨ b.addr + 40 + b.size ≤ first r 0 := by
  cases r with
  | nil => exact .inl rfl
  | cons c t => exact .inr (h.before hb List.mem_cons_self)

theorem first_lt (h : Layout magic R m (l ++ r)) : first r 0 < 2 ^ 64 := h.chain.first_lt

end Layout

theorem merge_spec {a : Block} {sz : Nat} (h : Layout magic R m (l ++ a :: (w ++ r)))
    (hsz : sz = a.size + extent 40 w) :
    Layout magic R
      (linkPrev (put (put m a.addr .size sz) a.addr .next (first r 0)) (first r 0) a.addr)
      (l ++ { a with size := sz } :: r) := by
  refine ⟨Tiles.replace (w := a :: w) (t := [{ a with size := sz }]) (by simpa using h.tiles) ?_,
    (merge_chain h.chain hsz).linked⟩
  rintro x e ⟨hx, he⟩
  have := he.end_eq
  exact ⟨hx, by rw [tiles_nil]; dsimp only; omega⟩

theorem putFree_spec (h : Layout magic R m (l ++ b :: r)) (v : Bool) :
    Layout magic R (put m b.addr .free v.toNat) (l ++ { b with free := v } :: r) :=
  ⟨h.tiles.replace (w := [b]) (t := [_]) fun _ _ he => he, (putFree_chain h.chain v).linked⟩

/-! ## Walks along the list -/

namespace Layout

theorem addr_ne_zero (h : Layout magic R m l) : ∀ b ∈ l, b.addr ≠ 0 := h.chain.addr_ne_zero

theorem length_lt (h : Layout magic R m l) : l.length < 2 ^ 64 := h.chain.length_lt

theorem head_eq (h : Layout magic R m l) : first l 0 = R.lo := by
  cases l with
  | nil =>
    have h1 := R.room
    have h2 : R.lo = R.hi := h.tiles
    omega
  | cons b l => exact h.tiles.1

/-- A write that touches no header of the list. -/
theorem congr (h : Layout magic R m l)
    (hm : ∀ b ∈ l, ∀ x, b.addr ≤ x → x < b.addr + 40 → m' x = m x) : Layout magic R m' l :=
  ⟨h.tiles, h.linked.mono fun b hb _ _ hs => hs.congr fun f => get_congr f (hm b hb)⟩

end Layout

theorem Stored.free_ne_zero {p n : Nat} (h : Stored magic m b p n) :
    get m b.addr .free ≠ 0 ↔ b.free = true := by
  rw [h.free]
  cases b.free <;> decide

/-- A block that `find_fit` accepts. -/
def Fits (size : Nat) (b : Block) : Prop := b.free = true ∧ size ≤ b.size

theorem findFitLoop_cases {p size k : Nat} (h : Linked (Stored magic m) p l 0)
    (hpos : ∀ b ∈ l, b.addr ≠ 0) (hk : l.length < k) :
    (findFitLoop m size k (first l 0) = some 0 ∧ ∀ b ∈ l, ¬ Fits size b) ∨
    ∃ u b v, l = u ++ b :: v ∧ Fits size b ∧ (∀ c ∈ u, ¬ Fits size c) ∧
      findFitLoop m size k (first l 0) = some b.addr := by
  induction l generalizing p k with
  | nil =>
    obtain ⟨k, rfl⟩ : ∃ i, k = i + 1 := ⟨k - 1, by simp only [List.length_nil] at hk; omega⟩
    exact .inl ⟨rfl, by simp⟩
  | cons b l ih =>
    rw [List.length_cons] at hk
    obtain ⟨k, rfl⟩ : ∃ i, k = i + 1 := ⟨k - 1, by omega⟩
    obtain ⟨hb, hl⟩ := h
    have hstep : findFitLoop m size (k + 1) (first (b :: l) 0) =
        if b.free = true ∧ size ≤ b.size then some b.addr
        else findFitLoop m size k (first l 0) := by
      rw [first_cons, findFitLoop, if_neg (hpos b List.mem_cons_self), hb.size, hb.next]
      simp only [hb.free_ne_zero]
    rw [hstep]
    by_cases hfit : Fits size b
    · exact .inr ⟨[], b, l, rfl, hfit, by simp, if_pos hfit⟩
    rw [if_neg (show ¬ (b.free = true ∧ size ≤ b.size) from hfit)]
    rcases ih (k := k) hl (fun c hc => hpos c (List.mem_cons_of_mem _ hc)) (by omega) with
      ⟨hnone, hno⟩ | ⟨u, c, v, rfl, hc, hu, hsome⟩
    · refine .inl ⟨hnone, ?_⟩
      rintro c (_ | ⟨_, hc⟩)
      · exact hfit
      · exact hno c hc
    · refine .inr ⟨b :: u, c, v, rfl, hc, ?_, hsome⟩
      rintro d (_ | ⟨_, hd⟩)
      · exact hfit
      · exact hu d hd

/-- `find_fit` returns the first block that fits, or NULL when none does. -/
theorem Chain.findFit_cases (h : Chain magic R e s.mem l) (hhead : s.head = first l 0)
    (size : Nat) :
    (findFit s size = some 0 ∧ ∀ b ∈ l, ¬ Fits size b) ∨
    ∃ u b v, l = u ++ b :: v ∧ Fits size b ∧ (∀ c ∈ u, ¬ Fits size c) ∧
      findFit s size = some b.addr := by
  unfold findFit
  rw [hhead]
  exact findFitLoop_cases h.linked h.addr_ne_zero h.length_lt

theorem findFit_cases (h : Layout magic R s.mem l) (hhead : s.head = R.lo) (size : Nat) :
    (findFit s size = some 0 ∧ ∀ b ∈ l, ¬ Fits size b) ∨
    ∃ u b v, l = u ++ b :: v ∧ Fits size b ∧ (∀ c ∈ u, ¬ Fits size c) ∧
      findFit s size = some b.addr :=
  h.chain.findFit_cases (hhead.trans h.head_eq.symm) size

theorem statsLoop_eq {p k : Nat} (h : Linked (Stored magic m) p l 0)
    (hpos : ∀ b ∈ l, b.addr ≠ 0) (hk : l.length < k) (st : Stats) :
    statsLoop m k (first l 0) st = some (l.foldl (fun st b => st.count b.size b.free) st) := by
  induction l generalizing p k st with
  | nil =>
    obtain ⟨k, rfl⟩ : ∃ i, k = i + 1 := ⟨k - 1, by simp only [List.length_nil] at hk; omega⟩
    rfl
  | cons b l ih =>
    rw [List.length_cons] at hk
    obtain ⟨k, rfl⟩ : ∃ i, k = i + 1 := ⟨k - 1, by omega⟩
    obtain ⟨hb, hl⟩ := h
    rw [first_cons, statsLoop, if_neg (hpos b List.mem_cons_self), hb.size, hb.next]
    simp only [hb.free_ne_zero, Bool.decide_eq_true, List.foldl_cons]
    exact ih hl (fun c hc => hpos c (List.mem_cons_of_mem _ hc)) (by omega) _

theorem stats_eq (h : Layout magic R s.mem l) (hhead : s.head = R.lo) :
    stats s = some (l.foldl (fun st b => st.count b.size b.free) ⟨0, 0, 0, 0, 0, 0, 0⟩) := by
  unfold stats
  rw [hhead, ← h.head_eq]
  exact statsLoop_eq h.linked h.addr_ne_zero h.length_lt _

theorem Stats.count_totalManaged (st : Stats) (size : Nat) (free : Bool) :
    (st.count size free).totalManaged = wadd st.totalManaged (wadd 40 size) := by
  unfold Stats.count
  cases free <;> rfl

theorem foldl_totalManaged {lo hi : Nat} (ht : Tiles 40 lo l hi) (st : Stats)
    (hst : st.totalManaged + (hi - lo) < 2 ^ 64) :
    (l.foldl (fun st b => st.count b.size b.free) st).totalManaged =
      st.totalManaged + (hi - lo) := by
  induction l generalizing lo st with
  | nil =>
    rw [tiles_nil] at ht
    rw [List.foldl_nil]
    omega
  | cons b l ih =>
    obtain ⟨hb, hl⟩ := ht
    have hlen := hl.length_le
    have hcount : (st.count b.size b.free).totalManaged = st.totalManaged + (40 + b.size) := by
      rw [Stats.count_totalManaged, wadd_eq (a := 40) (by omega), wadd_eq (by omega)]
    rw [List.foldl_cons, ih hl _ (by omega), hcount]
    omega

end KernelC.Malloc
