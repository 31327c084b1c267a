import KernelC.Fat16.Chain
import Mathlib.Data.Finset.Card
import Mathlib.Logic.Relation

/-!
# Freeing on any table

`free_cluster_chain` follows links that it erases. On a table that holds anything (cycles,
chains that share clusters, links that leave the table) it comes to an end because every
round turns an entry that is not 0 into 0: `linked fat` is the measure.

`freeClusterRounds` is the loop once more, with the entries that it looks at, and without
a result when the rounds do not suffice; `freeClusterRounds_loop` says that it is the loop
of `Fat16.Basic`.

Result: `free_any_table`.
-/

namespace KernelC.Fat16

/-- The entries that are looked at, in order, and the table. -/
def freeClusterRounds : Nat → (Nat → Nat) → Nat → Option (List Nat × (Nat → Nat))
  | 0, _, _ => none
  | rounds + 1, fat, cur =>
    if cur ≠ 0 ∧ cur < fatEntries then
      if fat cur ≠ 0 then
        let next := fat cur
        let fat := Function.update fat cur 0
        if next = eof then some ([cur], fat)
        else (freeClusterRounds rounds fat next).map fun r => (cur :: r.1, r.2)
      else some ([cur], fat)
    else some ([], fat)

/-- `free_cluster_chain` in a number of rounds. -/
def freeChainRounds (rounds : Nat) (fat : Nat → Nat) (first : Nat) :
    Option (List Nat × (Nat → Nat)) :=
  if first < 2 ∨ first ≥ fatEntries then some ([], fat) else freeClusterRounds rounds fat first

/-- One link of the table. -/
def Link (fat : Nat → Nat) (x y : Nat) : Prop := x < fatEntries ∧ fat x = y

/-- Reached from `first` by following links. -/
def Reached (fat : Nat → Nat) : Nat → Nat → Prop := Relation.ReflTransGen (Link fat)

variable {fat fat' : Nat → Nat} {cur rounds : Nat}

/-! ## It ends -/

/-- The entries that can still be erased. -/
def linked (fat : Nat → Nat) : Finset Nat :=
  (Finset.range fatEntries).filter fun x => x ≠ 0 ∧ fat x ≠ 0

theorem mem_linked {x : Nat} : x ∈ linked fat ↔ x < fatEntries ∧ x ≠ 0 ∧ fat x ≠ 0 := by
  rw [linked, Finset.mem_filter, Finset.mem_range]

theorem linked_erase (cur : Nat) : linked (Function.update fat cur 0) = (linked fat).erase cur := by
  ext x
  rw [Finset.mem_erase, mem_linked, mem_linked]
  by_cases hx : x = cur
  · simp [hx]
  · simp [hx]

theorem card_linked_lt (fat : Nat → Nat) : (linked fat).card < fatEntries := by
  have hsub : linked fat ⊆ (Finset.range fatEntries).erase 0 := by
    intro x hx
    obtain ⟨hlt, hne, -⟩ := mem_linked.mp hx
    exact Finset.mem_erase.mpr ⟨hne, Finset.mem_range.mpr hlt⟩
  have hcard := Finset.card_le_card hsub
  have hpos : 0 < fatEntries := by decide
  rw [Finset.card_erase_of_mem (Finset.mem_range.mpr hpos), Finset.card_range] at hcard
  omega

theorem freeClusterRounds_ends (h : (linked fat).card < rounds) (cur : Nat) :
    ∃ r, freeClusterRounds rounds fat cur = some r := by
  induction rounds generalizing fat cur with
  | zero => omega
  | succ rounds ih =>
    rw [freeClusterRounds]
    split
    · next hin =>
      split
      · next hne =>
        have hmem : cur ∈ linked fat := mem_linked.mpr ⟨hin.2, hin.1, hne⟩
        have hless : (linked (Function.update fat cur 0)).card < rounds := by
          rw [linked_erase, Finset.card_erase_of_mem hmem]
          have := Finset.card_pos.mpr ⟨cur, hmem⟩
          omega
        obtain ⟨r, hr⟩ := ih hless (fat cur)
        dsimp only
        split
        · exact ⟨_, rfl⟩
        · exact ⟨_, by rw [hr]; rfl⟩
      · exact ⟨_, rfl⟩
    · exact ⟨_, rfl⟩

/-! ## What it does -/

/-- The round ends the loop, or erases an entry and goes on at its link. -/
theorem freeClusterRounds_cases {is : List Nat}
    (h : freeClusterRounds (rounds + 1) fat cur = some (is, fat')) :
    (¬ (cur ≠ 0 ∧ cur < fatEntries ∧ fat cur ≠ 0) ∧ (∀ i ∈ is, i < fatEntries) ∧ fat' = fat) ∨
    ((cur ≠ 0 ∧ cur < fatEntries ∧ fat cur ≠ 0) ∧
      ((fat cur = eof ∧ is = [cur] ∧ fat' = Function.update fat cur 0) ∨
        fat cur ≠ eof ∧ ∃ js, is = cur :: js ∧
          freeClusterRounds rounds (Function.update fat cur 0) (fat cur) = some (js, fat'))) := by
  rw [freeClusterRounds] at h
  split at h
  · next hin =>
    split at h
    · next hne =>
      refine .inr ⟨⟨hin.1, hin.2, hne⟩, ?_⟩
      dsimp only at h
      split at h
      · next heof =>
        obtain ⟨rfl, rfl⟩ := Prod.mk.inj (Option.some.inj h)
        exact .inl ⟨heof, rfl, rfl⟩
      · next heof =>
        obtain ⟨r, hr, heq⟩ := Option.map_eq_some_iff.mp h
        obtain ⟨rfl, rfl⟩ := Prod.mk.inj heq
        exact .inr ⟨heof, r.1, rfl, hr⟩
    · next hz =>
      obtain ⟨rfl, rfl⟩ := Prod.mk.inj (Option.some.inj h)
      refine .inl ⟨fun hno => hz hno.2.2, fun i hi => ?_, rfl⟩
      rw [List.mem_singleton.mp hi]
      exact hin.2
  · next hin =>
    obtain ⟨rfl, rfl⟩ := Prod.mk.inj (Option.some.inj h)
    exact .inl ⟨fun hno => hin ⟨hno.1, hno.2.1⟩, fun i hi => absurd hi List.not_mem_nil, rfl⟩

/-- The loop without its trace. -/
theorem freeClusterRounds_loop {is : List Nat}
    (h : freeClusterRounds rounds fat cur = some (is, fat')) :
    freeClusterLoop rounds fat cur = fat' := by
  induction rounds generalizing fat cur is with
  | zero => cases h
  | succ rounds ih =>
    rw [freeClusterLoop]
    obtain ⟨hstop, -, rfl⟩ | ⟨hgo, ⟨heof, -, rfl⟩ | ⟨heof, js, -, hrest⟩⟩ :=
      freeClusterRounds_cases h
    · rw [if_neg hstop]
    · rw [if_pos hgo, if_pos heof]
    · rw [if_pos hgo, if_neg heof]
      exact ih hrest

theorem freeClusterRounds_inside {is : List Nat}
    (h : freeClusterRounds rounds fat cur = some (is, fat')) : ∀ i ∈ is, i < fatEntries := by
  induction rounds generalizing fat cur is with
  | zero => cases h
  | succ rounds ih =>
    obtain ⟨-, his, -⟩ | ⟨hgo, ⟨-, rfl, -⟩ | ⟨-, js, rfl, hrest⟩⟩ := freeClusterRounds_cases h
    · exact his
    · intro i hi
      rw [List.mem_singleton.mp hi]
      exact hgo.2.1
    · intro i hi
      rcases List.mem_cons.mp hi with rfl | hi
      · exact hgo.2.1
      · exact ih hrest i hi

/-- An entry that changes becomes 0, and is reached in the table that the loop began with,
here `fat₀`: the table still agrees with it wherever it is not 0. -/
theorem freeClusterRounds_reached {fat₀ : Nat → Nat} {first : Nat} {is : List Nat}
    (h : freeClusterRounds rounds fat cur = some (is, fat'))
    (hag : ∀ x, fat x ≠ 0 → fat x = fat₀ x) (hcur : Reached fat₀ first cur) :
    ∀ x, fat' x = fat x ∨ (fat' x = 0 ∧ x < fatEntries ∧ Reached fat₀ first x) := by
  induction rounds generalizing fat cur is with
  | zero => cases h
  | succ rounds ih =>
    intro x
    obtain ⟨-, -, rfl⟩ | ⟨hgo, ⟨-, -, rfl⟩ | ⟨-, js, -, hrest⟩⟩ := freeClusterRounds_cases h
    · exact .inl rfl
    · by_cases hx : x = cur
      · subst hx
        exact .inr ⟨Function.update_self _ _ _, hgo.2.1, hcur⟩
      · exact .inl (Function.update_of_ne hx _ _)
    · have hag' : ∀ y, Function.update fat cur 0 y ≠ 0 → Function.update fat cur 0 y = fat₀ y := by
        intro y hy
        by_cases hyc : y = cur
        · rw [hyc, Function.update_self] at hy
          exact absurd rfl hy
        · rw [Function.update_of_ne hyc] at hy ⊢
          exact hag y hy
      have hnext : Reached fat₀ first (fat cur) :=
        hcur.tail ⟨hgo.2.1, (hag cur hgo.2.2).symm⟩
      rcases ih hrest hag' hnext x with hsame | hzero
      · by_cases hx : x = cur
        · subst hx
          rw [Function.update_self] at hsame
          exact .inr ⟨hsame, hgo.2.1, hcur⟩
        · rw [Function.update_of_ne hx] at hsame
          exact .inl hsame
      · exact .inr hzero

/-- For every table and every first cluster: the loop ends after at most as many rounds as
there are entries, with the result of `free_cluster_chain`; it looks only at entries of the
table; an entry is as it was, or it is 0 and reached from the first cluster; and a
well-formed chain is freed, nothing else. -/
theorem free_any_table (fat : Nat → Nat) (first : Nat) :
    ∃ is fat', freeChainRounds fatEntries fat first = some (is, fat') ∧
      freeClusterChain fat first = fat' ∧ (∀ i ∈ is, i < fatEntries) ∧
      (∀ x, fat' x = fat x ∨ (fat' x = 0 ∧ x < fatEntries ∧ Reached fat first x)) ∧
      ∀ l, Chain fat first l → ∀ x, fat' x = if x ∈ l then 0 else fat x := by
  have hchain : ∀ l, Chain fat first l →
      ∀ x, freeClusterChain fat first x = if x ∈ l then 0 else fat x := by
    intro l hl x
    rw [freeClusterChain_eq hl]
    rfl
  unfold freeChainRounds
  by_cases hfirst : first < 2 ∨ first ≥ fatEntries
  · have hfat : freeClusterChain fat first = fat := by rw [freeClusterChain, if_pos hfirst]
    rw [hfat] at hchain
    rw [if_pos hfirst]
    exact ⟨[], fat, rfl, hfat, by simp, fun x => .inl rfl, hchain⟩
  · obtain ⟨⟨is, fat'⟩, hrun⟩ := freeClusterRounds_ends (card_linked_lt fat) first
    have hfat : freeClusterChain fat first = fat' := by
      rw [freeClusterChain, if_neg hfirst]
      exact freeClusterRounds_loop hrun
    rw [hfat] at hchain
    rw [if_neg hfirst]
    exact ⟨is, fat', hrun, hfat, freeClusterRounds_inside hrun,
      freeClusterRounds_reached hrun (fun x _ => rfl) Relation.ReflTransGen.refl, hchain⟩

end KernelC.Fat16
