import Mathlib.Data.List.Nodup
import Mathlib.Logic.Function.Basic

/-!
# Paths along a link function

A linked structure is read through a total function `next : α → α` that gives
the successor of a node: a table of successors, or a link field. The predicate
`Path next p l q` says that following `next` from `p` visits exactly the nodes
`l`, in this order, and then stands at `q`.

* A list that ends in a marker `e` is a path to `e` whose nodes are not `e`.
  Such a list is unique (`Path.unique`) and visits no node twice
  (`Path.nodup`).
* A path reads only the links of its own nodes (`Path.congr`), so an update of
  any other node leaves it alone (`Path.update`).
* Paths are cut and joined at any node (`path_append`).
-/

namespace KernelC

variable {α : Type*} {next next' : α → α}

/-- Following `next` from `p` visits `l` and then stands at `q`. -/
def Path (next : α → α) : α → List α → α → Prop
  | p, [], q => p = q
  | p, x :: l, q => p = x ∧ Path next (next x) l q

@[simp] theorem path_nil {p q : α} : Path next p [] q ↔ p = q := Iff.rfl

@[simp] theorem path_cons {p x q : α} {l : List α} :
    Path next p (x :: l) q ↔ p = x ∧ Path next (next x) l q := Iff.rfl

theorem path_append {p q : α} : ∀ {l r : List α},
    Path next p (l ++ r) q ↔ ∃ m, Path next p l m ∧ Path next m r q := by
  intro l
  induction l generalizing p with
  | nil => intro r; simp
  | cons x l ih =>
    intro r
    simp only [List.cons_append, path_cons, ih]
    constructor
    · rintro ⟨hp, m, hl, hr⟩
      exact ⟨m, ⟨hp, hl⟩, hr⟩
    · rintro ⟨m, ⟨hp, hl⟩, hr⟩
      exact ⟨hp, m, hl, hr⟩

namespace Path

theorem snoc {p q x : α} {l : List α} (h : Path next p l x) (hx : next x = q) :
    Path next p (l ++ [x]) q :=
  path_append.mpr ⟨x, h, rfl, hx⟩

/-- A path reads only the links of the nodes it visits. -/
theorem congr {p q : α} {l : List α} (h : Path next p l q)
    (hag : ∀ x ∈ l, next' x = next x) : Path next' p l q := by
  induction l generalizing p with
  | nil => exact h
  | cons x l ih =>
    obtain ⟨hp, hl⟩ := h
    refine ⟨hp, ?_⟩
    rw [hag x List.mem_cons_self]
    exact ih hl fun y hy => hag y (List.mem_cons_of_mem _ hy)

theorem update [DecidableEq α] {p q a v : α} {l : List α} (h : Path next p l q) (ha : a ∉ l) :
    Path (Function.update next a v) p l q :=
  h.congr fun x hx => Function.update_of_ne (fun he => ha (by rwa [← he])) _ _

/-- A list that ends in the marker `e` is determined by its start. -/
theorem unique {p e : α} {l l' : List α} (h : Path next p l e) (h' : Path next p l' e)
    (he : e ∉ l) (he' : e ∉ l') : l = l' := by
  induction l generalizing p l' with
  | nil =>
    cases l' with
    | nil => rfl
    | cons y l' => exact absurd (h.symm.trans h'.1 ▸ List.mem_cons_self) he'
  | cons x l ih =>
    obtain ⟨hp, hl⟩ := h
    cases l' with
    | nil => exact absurd (h'.symm.trans hp ▸ List.mem_cons_self) he
    | cons y l' =>
      obtain ⟨hp', hl'⟩ := h'
      have hxy : x = y := hp.symm.trans hp'
      subst hxy
      rw [ih hl hl' (fun hm => he (List.mem_cons_of_mem _ hm))
        (fun hm => he' (List.mem_cons_of_mem _ hm))]

/-- A list that ends in a marker visits no node twice: from a repeated node the
rest of the list would have two different lengths. -/
theorem nodup {p e : α} {l : List α} (h : Path next p l e) (he : e ∉ l) : l.Nodup := by
  induction l generalizing p with
  | nil => exact List.nodup_nil
  | cons x l ih =>
    have he' : e ∉ l := fun hm => he (List.mem_cons_of_mem _ hm)
    refine List.nodup_cons.mpr ⟨fun hx => ?_, ih h.2 he'⟩
    obtain ⟨l₁, l₂, rfl⟩ := List.append_of_mem hx
    obtain ⟨m, _, hm, hrest⟩ := path_append.mp h.2
    subst hm
    have h₂ : e ∉ m :: l₂ := fun hm => he' (List.mem_append_right _ hm)
    have hshort : Path next m (m :: l₂) e := ⟨rfl, hrest⟩
    have hlong : Path next m (m :: (l₁ ++ m :: l₂)) e := ⟨rfl, h.2⟩
    have hlen := congrArg List.length (unique hshort hlong h₂ he)
    simp only [List.length_cons, List.length_append] at hlen
    omega

/-- A node that is reached before the marker `e` is in the list that ends in
`e`. -/
theorem mem_of_reached {p a e : α} {l l' : List α} (h : Path next p l e)
    (h' : Path next p l' a) (he : e ∉ l') (ha : a ≠ e) : a ∈ l := by
  induction l' generalizing p l with
  | nil =>
    cases l with
    | nil => exact absurd (h'.symm.trans h) ha
    | cons x l => exact (h'.symm.trans h.1) ▸ List.mem_cons_self
  | cons y l' ih =>
    obtain ⟨rfl, hrest⟩ := h'
    cases l with
    | nil => exact absurd (h ▸ List.mem_cons_self) he
    | cons x l =>
      obtain ⟨rfl, hl⟩ := h
      exact List.mem_cons_of_mem _ (ih hl hrest fun hm => he (List.mem_cons_of_mem _ hm))

end Path

end KernelC
