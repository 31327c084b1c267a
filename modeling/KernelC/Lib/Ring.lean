import KernelC.Lib.Path
import Mathlib.Data.List.Induction

/-!
# Circular lists

A circular list is known by its last node: `Ring next tail l` says that
following `next` from the node behind `tail` visits the nodes `l`, each once,
the last of them being `tail`, and comes back.

* `Ring.insert` and `Ring.remove` are the two edits: a new last node, and any
  node taken out. `Ring.rotate` reads the ring from any of its nodes.
* `ringFind` and `ringPrev` are the loops that go round a ring once,
  `do … while (it != start)`: the first node with a property, and the node
  before a given one. `ringFind_eq`, `ringPrev_mem` and `ringPrev_of_notMem`
  say what they return, `ringWalk` which nodes they read.
-/

namespace KernelC

variable {α : Type*} {next : α → α}

/-- The nodes `l`, the last of them `tail`, form a circular list. -/
structure Ring (next : α → α) (tail : α) (l : List α) : Prop where
  path : Path next (next tail) l (next tail)
  last : l.getLast? = some tail
  nodup : l.Nodup

/-- A circular list read from the node `x`: following `next` from there visits
`w`, each node once, and comes back. -/
structure Cycle (next : α → α) (x : α) (w : List α) : Prop where
  path : Path next x w x
  nodup : w.Nodup
  nonempty : w ≠ []

/-- Reading on behind the node `a`: what was before it, and `a`, come last. -/
theorem Cycle.turn {x a : α} {u v : List α} (h : Cycle next x (u ++ a :: v)) :
    Cycle next (next a) (v ++ u ++ [a]) := by
  obtain ⟨m, hu, rfl, hv⟩ := path_append.mp h.path
  refine ⟨Path.snoc (path_append.mpr ⟨x, hv, hu⟩) rfl, ?_, by simp⟩
  have hperm : (v ++ u ++ [m]).Perm (u ++ m :: v) := by
    rw [List.append_assoc]
    exact List.perm_append_comm.trans (by simp)
  exact hperm.nodup_iff.mpr h.nodup

/-- The cycle behind a node that is in it is the ring with this last node. -/
theorem Cycle.ring {a : α} {w : List α} (h : Cycle next (next a) w) (ha : a ∈ w) :
    Ring next a w := by
  refine ⟨h.path, ?_, h.nodup⟩
  obtain ⟨u, v, rfl⟩ := List.append_of_mem ha
  obtain ⟨m, hu, rfl, hv⟩ := path_append.mp h.path
  cases v with
  | nil => simp
  | cons y v =>
    -- the node behind `a` would be in the cycle twice
    have hy : next m = y := hv.1
    have hstart : y ∈ u ++ [m] := by
      cases u with
      | nil =>
        have hm : next m = m := hu
        simp [← hy, hm]
      | cons x u =>
        have hx : next m = x := hu.1
        simp [← hy, hx]
    have hnodup := h.nodup
    rw [show u ++ m :: y :: v = (u ++ [m]) ++ y :: v by simp] at hnodup
    exact absurd rfl ((List.nodup_append.mp hnodup).2.2 y hstart y List.mem_cons_self)

/-- The node before the node that follows `a`, where `p` is before `a`. -/
def prevOf (p : α) (a : List α) : α := a.getLast?.getD p

@[simp] theorem prevOf_nil (p : α) : prevOf p [] = p := rfl

@[simp] theorem prevOf_concat (p q : α) (a : List α) : prevOf p (a ++ [q]) = q := by
  simp [prevOf]

theorem prevOf_cons (p q : α) (a : List α) : prevOf p (q :: a) = prevOf q a := by
  simp [prevOf, List.getLast?_cons]

namespace Ring

theorem tail_mem {tail : α} {l : List α} (h : Ring next tail l) : tail ∈ l :=
  List.mem_of_getLast? h.last

theorem next_mem {tail x : α} {l : List α} (h : Ring next tail l) (hx : x ∈ l) :
    next x ∈ l := by
  obtain ⟨a, b, rfl⟩ := List.append_of_mem hx
  obtain ⟨m, ha, rfl, hb⟩ := path_append.mp h.path
  cases b with
  | nil =>
    -- the last node: its successor is the first one
    cases a with
    | nil =>
      have hstart : next tail = m := ha
      have hend : next m = next tail := hb
      rw [hend, hstart]
      exact List.mem_cons_self
    | cons y a =>
      have hend : next m = next tail := hb
      rw [hend, ha.1]
      exact List.mem_cons_self
  | cons y b =>
    rw [hb.1]
    simp

theorem congr {next' : α → α} {tail : α} {l : List α} (h : Ring next tail l)
    (hag : ∀ x ∈ l, next' x = next x) : Ring next' tail l := by
  refine ⟨?_, h.last, h.nodup⟩
  rw [hag tail h.tail_mem]
  exact h.path.congr hag

/-- The ring read from any of its nodes. -/
theorem rotate {tail x : α} {l : List α} (h : Ring next tail l) (hx : x ∈ l) :
    ∃ r, Path next x (x :: r) x ∧ x ∉ r ∧ (x :: r).Perm l := by
  obtain ⟨a, b, rfl⟩ := List.append_of_mem hx
  obtain ⟨m, ha, rfl, hb⟩ := path_append.mp h.path
  have hperm : (m :: b ++ a).Perm (a ++ m :: b) := List.perm_append_comm
  refine ⟨b ++ a, ⟨rfl, path_append.mpr ⟨_, hb, ha⟩⟩, ?_, hperm⟩
  exact (List.nodup_cons.mp (hperm.nodup_iff.mpr h.nodup)).1

/-- The ring with another last node. -/
theorem turn {tail x : α} {a b : List α} (h : Ring next tail (a ++ x :: b)) :
    Ring next x (b ++ (a ++ [x])) := by
  obtain ⟨m, ha, rfl, hb⟩ := path_append.mp h.path
  refine ⟨path_append.mpr ⟨_, hb, Path.snoc ha rfl⟩, ?_, ?_⟩
  · rw [← List.append_assoc, List.getLast?_concat]
  · have hperm : (b ++ (a ++ [m])).Perm (a ++ m :: b) := by
      rw [← List.append_assoc]
      refine (List.perm_append_comm.append_right [m]).trans ?_
      rw [List.append_assoc]
      exact (List.perm_append_singleton m b).append_left a
    exact hperm.nodup_iff.mpr h.nodup

/-- The ring read from its first node on, or from any other one. -/
theorem cycle_append {tail x : α} {a b : List α} (h : Ring next tail (a ++ b))
    (hx : (b ++ a).head? = some x) : Cycle next x (b ++ a) := by
  obtain ⟨m, ha, hb⟩ := path_append.mp h.path
  have hpath : Path next m (b ++ a) m := path_append.mpr ⟨_, hb, ha⟩
  obtain ⟨r, hr⟩ := List.head?_eq_some_iff.mp hx
  have hm : m = x := by
    rw [hr] at hpath
    exact hpath.1
  exact ⟨hm ▸ hpath, List.perm_append_comm.nodup_iff.mp h.nodup, by simp [hr]⟩

theorem behind {tail : α} {l : List α} (h : Ring next tail l) : Cycle next (next tail) l :=
  ⟨h.path, h.nodup, List.ne_nil_of_mem h.tail_mem⟩

/-- The last node determines the ring. -/
theorem unique {tail : α} {l l' : List α} (h : Ring next tail l) (h' : Ring next tail l') :
    l = l' := by
  obtain ⟨x, r, rfl⟩ := List.exists_cons_of_ne_nil (List.ne_nil_of_mem h.tail_mem)
  obtain ⟨y, r', rfl⟩ := List.exists_cons_of_ne_nil (List.ne_nil_of_mem h'.tail_mem)
  obtain ⟨hx, hr⟩ := h.path
  obtain ⟨hy, hr'⟩ := h'.path
  obtain rfl : x = y := hx.symm.trans hy
  rw [hx] at hr hr'
  rw [hr.unique hr' (List.nodup_cons.mp h.nodup).1 (List.nodup_cons.mp h'.nodup).1]

/-- The nodes of the ring in the order that starts at `x`. -/
theorem cycle {tail x : α} {l : List α} (h : Ring next tail l) (hx : x ∈ l) :
    ∃ w, Cycle next x w ∧ w.Perm l := by
  obtain ⟨r, hpath, hxr, hperm⟩ := h.rotate hx
  exact ⟨x :: r, ⟨hpath, hperm.nodup_iff.mpr h.nodup, List.cons_ne_nil _ _⟩, hperm⟩

theorem next_ne {tail x y : α} {l : List α} (h : Ring next tail l) (hx : x ∈ l) (hy : y ∈ l)
    (hne : y ≠ x) : next x ≠ x := by
  obtain ⟨r, hpath, hxr, hperm⟩ := h.rotate hx
  have hyr : y ∈ r := (List.mem_cons.mp (hperm.mem_iff.mpr hy)).resolve_left hne
  obtain ⟨w, r, rfl⟩ := List.exists_cons_of_ne_nil (List.ne_nil_of_mem hyr)
  rw [hpath.2.1]
  exact fun he => hxr (by simp [he])

/-- A node that is its own successor is alone. -/
theorem eq_singleton {tail : α} {l : List α} (h : Ring next tail l) (hself : next tail = tail) :
    l = [tail] := by
  cases l with
  | nil => exact absurd h.last (by simp)
  | cons x l =>
    have hx : x = tail := by rw [← h.path.1, hself]
    subst hx
    cases l with
    | nil => rfl
    | cons y l =>
      have hlast := h.last
      rw [List.getLast?_cons_cons] at hlast
      exact absurd (List.mem_of_getLast? hlast) (List.nodup_cons.mp h.nodup).1

theorem start_notMem {tail : α} {l : List α} (h : Ring next tail l) : next tail ∉ l.tail := by
  cases l with
  | nil => simp
  | cons x l =>
    rw [h.path.1]
    exact (List.nodup_cons.mp h.nodup).1

theorem prevOf_mem {tail : α} {a b : List α} (h : Ring next tail (a ++ b)) :
    prevOf tail a ∈ a ++ b := by
  cases a using List.reverseRecOn with
  | nil => exact h.tail_mem
  | append_singleton a p => simp

/-- The node before `t` is another one, unless `t` is alone. -/
theorem prevOf_ne {tail t : α} {a b : List α} (h : Ring next tail (a ++ t :: b))
    (hne : a ++ b ≠ []) : prevOf tail a ≠ t := by
  have ht := (List.nodup_cons.mp (List.nodup_middle.mp h.nodup)).1
  cases a using List.reverseRecOn with
  | nil =>
    have hlast := h.last
    rw [List.nil_append] at hlast ht hne
    rw [List.getLast?_cons_of_ne_nil hne] at hlast
    rw [prevOf_nil]
    exact fun he => ht (he ▸ List.mem_of_getLast? hlast)
  | append_singleton a p =>
    rw [prevOf_concat]
    exact fun he => ht (by simp [he])

variable [DecidableEq α]

/-- A new last node. -/
theorem insert {tail t : α} {l : List α} (h : Ring next tail l) (ht : t ∉ l) :
    Ring (Function.update (Function.update next t (next tail)) tail t) t (l ++ [t]) := by
  have hne : t ≠ tail := fun he => ht (he ▸ h.tail_mem)
  obtain ⟨u, rfl⟩ := List.getLast?_eq_some_iff.mp h.last
  obtain ⟨m, hu, rfl, -⟩ := path_append.mp h.path
  have hnodup := h.nodup
  rw [List.nodup_append] at hnodup
  have hmu : m ∉ u := fun hm => hnodup.2.2 m hm m (by simp) rfl
  have htu : t ∉ u := fun hm => ht (List.mem_append_left _ hm)
  have hstart : Function.update (Function.update next t (next m)) m t t = next m := by
    rw [Function.update_of_ne hne, Function.update_self]
  refine ⟨?_, by simp, ?_⟩
  · rw [hstart]
    refine path_append.mpr ⟨t, Path.snoc ((hu.update htu).update hmu) (Function.update_self _ _ _), ?_⟩
    exact ⟨rfl, hstart⟩
  · exact List.nodup_append.mpr ⟨h.nodup, List.nodup_singleton t,
      fun x hx y hy he => ht (by rw [List.mem_singleton.mp hy] at he; exact he ▸ hx)⟩

/-- A node is taken out of a ring of at least two. -/
theorem remove {tail t : α} {a b : List α} (h : Ring next tail (a ++ t :: b))
    (hne : a ++ b ≠ []) :
    Ring (Function.update next (prevOf tail a) (next t))
      (if t = tail then prevOf tail a else tail) (a ++ b) := by
  have hnodup : (a ++ b).Nodup := h.nodup.sublist (by simp)
  obtain ⟨m, ha, rfl, hb⟩ := path_append.mp h.path
  have hm : m ∉ a ++ b := (List.nodup_middle.mp h.nodup |> List.nodup_cons.mp).1
  cases a using List.reverseRecOn with
  | nil =>
    -- the first node: the last one now points to its successor
    have hstart : next tail = m := ha
    obtain ⟨u, rfl⟩ : ∃ u, b = u ++ [tail] := by
      have hlast := h.last
      rw [List.nil_append, List.getLast?_cons_of_ne_nil (by simpa using hne)] at hlast
      exact List.getLast?_eq_some_iff.mp hlast
    have htail : m ≠ tail := fun he => hm (by simp [he])
    have hu := List.nodup_append.mp (show (u ++ [tail]).Nodup from hnodup)
    have htu : tail ∉ u := fun hx => hu.2.2 tail hx tail (by simp) rfl
    obtain ⟨x, hpath, rfl, -⟩ := path_append.mp hb
    rw [if_neg htail, prevOf_nil]
    refine ⟨?_, by simp, hnodup⟩
    rw [Function.update_self]
    exact Path.snoc (hpath.update htu) (Function.update_self _ _ _)
  | append_singleton a p =>
    obtain ⟨x, hpa, rfl, hpm⟩ := path_append.mp ha
    have hpm' : next x = m := hpm
    have hxa : x ∉ a ∧ x ∉ b := by
      have hn := hnodup
      simp only [List.append_assoc, List.singleton_append] at hn
      have := (List.nodup_cons.mp (List.nodup_middle.mp hn)).1
      exact ⟨fun hx => this (List.mem_append_left _ hx), fun hx => this (List.mem_append_right _ hx)⟩
    rw [prevOf_concat]
    cases b using List.reverseRecOn with
    | nil =>
      have htail : m = tail := by simpa using h.last
      subst htail
      rw [if_pos rfl, List.append_nil]
      refine ⟨?_, by simp, by simpa using hnodup⟩
      rw [Function.update_self]
      exact Path.snoc (hpa.update hxa.1) (Function.update_self _ _ _)
    | append_singleton b y =>
      have hy : y = tail := by
        have hlast := h.last
        rw [show a ++ [x] ++ m :: (b ++ [y]) = (a ++ [x] ++ m :: b) ++ [y] by simp,
          List.getLast?_concat] at hlast
        exact Option.some.inj hlast
      subst hy
      have hmy : m ≠ y := fun he => hm (by simp [he])
      have hxy : y ≠ x := fun he => hxa.2 (by simp [he])
      rw [if_neg hmy]
      refine ⟨?_, by rw [← List.append_assoc, List.getLast?_concat], hnodup⟩
      rw [Function.update_of_ne hxy]
      exact path_append.mpr ⟨next m, Path.snoc (hpa.update hxa.1) (Function.update_self _ _ _),
        hb.update hxa.2⟩

end Ring

/-! ## Going round once -/

variable [DecidableEq α]

/-- `do { if (found(it)) return it; it = it->next; } while (it != start)`, with a
bound on the rounds; the inner `none` is the way out at the end. -/
def ringFind (next : α → α) (found : α → Bool) (start : α) : Nat → α → Option (Option α)
  | 0, _ => none
  | k + 1, it =>
    if found it then some (some it)
    else if next it = start then some none
    else ringFind next found start k (next it)

theorem ringFind_eq {found : α → Bool} {start it : α} {l : List α} {k : Nat}
    (h : Path next it (it :: l) start) (hs : start ∉ l) (hk : l.length < k) :
    ringFind next found start k it = some ((it :: l).find? found) := by
  induction l generalizing it k with
  | nil =>
    obtain ⟨k, rfl⟩ : ∃ i, k = i + 1 := ⟨k - 1, by simp only [List.length_nil] at hk; omega⟩
    have hend : next it = start := h.2
    rw [ringFind, if_pos hend]
    cases hf : found it <;> simp [hf]
  | cons y l ih =>
    rw [List.length_cons] at hk
    obtain ⟨k, rfl⟩ : ∃ i, k = i + 1 := ⟨k - 1, by omega⟩
    obtain ⟨-, hy, hl⟩ := h
    have hgo : next it ≠ start := fun he => hs (by rw [← he, hy]; exact List.mem_cons_self)
    have hrec : ringFind next found start k y = some ((y :: l).find? found) :=
      ih ⟨rfl, hl⟩ (fun hm => hs (List.mem_cons_of_mem _ hm)) (by omega)
    rw [ringFind, if_neg hgo, hy, hrec]
    cases hf : found it <;> simp [hf]

/-- The loop over a cycle finds the first node in its order. -/
theorem ringFind_cycle {found : α → Bool} {x : α} {w : List α} {k : Nat} (h : Cycle next x w)
    (hk : w.length ≤ k) : ringFind next found x k x = some (w.find? found) := by
  obtain ⟨y, r, rfl⟩ := List.exists_cons_of_ne_nil h.nonempty
  obtain rfl : x = y := h.path.1
  rw [List.length_cons] at hk
  exact ringFind_eq h.path (List.nodup_cons.mp h.nodup).1 (by omega)

/-- The nodes that the loop reads. -/
def ringWalk (next : α → α) (found : α → Bool) (start : α) : Nat → α → List α
  | 0, _ => []
  | k + 1, it =>
    it :: if found it then [] else if next it = start then [] else ringWalk next found start k (next it)

section Closed

variable {P : α → Prop} {found : α → Bool} {start it : α} {k : Nat}

/-- A property that the links keep holds of what the loop finds. -/
theorem ringFind_sound (hnext : ∀ x, P x → P (next x)) (hit : P it) {n : α}
    (h : ringFind next found start k it = some (some n)) : P n ∧ found n = true := by
  induction k generalizing it with
  | zero => cases h
  | succ k ih =>
    rw [ringFind] at h
    split at h
    · next hf =>
      obtain rfl := Option.some.inj (Option.some.inj h)
      exact ⟨hit, hf⟩
    · split at h
      · cases h
      · exact ih (hnext _ hit) h

theorem ringWalk_sound (hnext : ∀ x, P x → P (next x)) (hit : P it) :
    ∀ x ∈ ringWalk next found start k it, P x := by
  induction k generalizing it with
  | zero => simp [ringWalk]
  | succ k ih =>
    rw [ringWalk]
    intro x hx
    rcases List.mem_cons.mp hx with rfl | hx
    · exact hit
    · split at hx
      · cases hx
      · split at hx
        · cases hx
        · exact ih (hnext _ hit) x hx

end Closed

/-- The same loop with the previous node carried along: the node before `t`. -/
def ringPrev (next : α → α) (t start : α) : Nat → α → α → Option (Option α)
  | 0, _, _ => none
  | k + 1, prev, it =>
    if it = t then some (some prev)
    else if next it = start then some none
    else ringPrev next t start k it (next it)

theorem ringPrev_mem {start p it t : α} {a b : List α} {k : Nat}
    (h : Path next it (a ++ t :: b) start) (hs : start ∉ (a ++ t :: b).tail) (ht : t ∉ a)
    (hk : a.length < k) : ringPrev next t start k p it = some (some (prevOf p a)) := by
  induction a generalizing it p k with
  | nil =>
    obtain ⟨k, rfl⟩ : ∃ i, k = i + 1 := ⟨k - 1, by simp only [List.length_nil] at hk; omega⟩
    have hit : it = t := h.1
    rw [ringPrev, if_pos hit, prevOf_nil]
  | cons x a ih =>
    rw [List.length_cons] at hk
    obtain ⟨k, rfl⟩ : ∃ i, k = i + 1 := ⟨k - 1, by omega⟩
    obtain ⟨rfl, hrest⟩ : it = x ∧ Path next (next x) (a ++ t :: b) start := h
    have hxt : it ≠ t := fun he => ht (by simp [he])
    obtain ⟨y, r, hyr⟩ : ∃ y r, a ++ t :: b = y :: r := by
      cases a with
      | nil => exact ⟨t, b, rfl⟩
      | cons y a => exact ⟨y, a ++ t :: b, rfl⟩
    have hgo : next it ≠ start := by
      intro he
      rw [hyr] at hrest
      refine hs ?_
      rw [List.cons_append, List.tail_cons, hyr, ← he, hrest.1]
      exact List.mem_cons_self
    rw [ringPrev, if_neg hxt, if_neg hgo, prevOf_cons]
    exact ih hrest (fun hm => hs (List.mem_of_mem_tail hm)) (fun hm => ht (List.mem_cons_of_mem _ hm))
      (by omega)

theorem ringPrev_of_notMem {start p it t : α} {l : List α} {k : Nat}
    (h : Path next it (it :: l) start) (hs : start ∉ l) (ht : t ∉ it :: l) (hk : l.length < k) :
    ringPrev next t start k p it = some none := by
  induction l generalizing it p k with
  | nil =>
    obtain ⟨k, rfl⟩ : ∃ i, k = i + 1 := ⟨k - 1, by simp only [List.length_nil] at hk; omega⟩
    have hit : it ≠ t := fun he => ht (by simp [he])
    have hend : next it = start := h.2
    rw [ringPrev, if_neg hit, if_pos hend]
  | cons y l ih =>
    rw [List.length_cons] at hk
    obtain ⟨k, rfl⟩ : ∃ i, k = i + 1 := ⟨k - 1, by omega⟩
    obtain ⟨-, hy, hl⟩ := h
    have hit : it ≠ t := fun he => ht (by simp [he])
    have hgo : next it ≠ start := fun he => hs (by rw [← he, hy]; exact List.mem_cons_self)
    rw [ringPrev, if_neg hit, if_neg hgo, hy]
    exact ih ⟨rfl, hl⟩ (fun hm => hs (List.mem_cons_of_mem _ hm))
      (fun hm => ht (List.mem_cons_of_mem _ hm)) (by omega)

end KernelC
