import Mathlib.Data.Finset.Basic

/-!
# A set that is divided among owners

`Divided S T f` says that the finite set `S` consists of the shares `f a` of the
owners `a` in `T`, and that no two shares overlap. The rules are the two changes
of a ledger: an owner comes with a share of its own (`Divided.add`), or leaves
and takes its share out (`Divided.remove`).
-/

namespace KernelC

variable {ι β : Type*} {S S' : Finset β} {T T' : Set ι} {f f' : ι → Finset β} {a : ι}

structure Divided (S : Finset β) (T : Set ι) (f : ι → Finset β) : Prop where
  mem : ∀ p, p ∈ S ↔ ∃ a ∈ T, p ∈ f a
  apart : ∀ a ∈ T, ∀ b ∈ T, ∀ p, p ∈ f a → p ∈ f b → a = b

namespace Divided

theorem share_mem (h : Divided S T f) (ha : a ∈ T) {p : β} (hp : p ∈ f a) : p ∈ S :=
  (h.mem p).mpr ⟨a, ha, hp⟩

theorem empty (hT : ∀ a, a ∉ T) : Divided ∅ T f := by
  refine ⟨fun p => ?_, fun a ha => absurd ha (hT a)⟩
  simp [hT]

/-- The same owners with the same shares. -/
theorem congr (h : Divided S T f) (hT : ∀ b, b ∈ T' ↔ b ∈ T) : Divided S T' f := by
  have heq : T' = T := Set.ext hT
  rw [heq]
  exact h

theorem add (h : Divided S T f) (hnew : ∀ p ∈ f' a, p ∉ S) (hf : ∀ b ∈ T, f' b = f b)
    (hS : ∀ p, p ∈ S' ↔ p ∈ f' a ∨ p ∈ S) (hT : ∀ b, b ∈ T' ↔ b = a ∨ b ∈ T) :
    Divided S' T' f' := by
  -- a new owner's share meets no old one
  have hout : ∀ b ∈ T, ∀ p ∈ f' a, p ∉ f b := fun b hb p hp hpb => hnew p hp (h.share_mem hb hpb)
  refine ⟨fun p => ?_, fun b hb c hc p hpb hpc => ?_⟩
  · rw [hS, h.mem]
    constructor
    · rintro (hp | ⟨b, hb, hp⟩)
      · exact ⟨a, (hT a).mpr (.inl rfl), hp⟩
      · exact ⟨b, (hT b).mpr (.inr hb), by rwa [hf b hb]⟩
    · rintro ⟨b, hb, hp⟩
      rcases (hT b).mp hb with rfl | hbT
      · exact .inl hp
      · exact .inr ⟨b, hbT, by rwa [← hf b hbT]⟩
  · rcases (hT b).mp hb with rfl | hbT
    · rcases (hT c).mp hc with rfl | hcT
      · rfl
      · rw [hf c hcT] at hpc
        exact absurd hpc (hout c hcT p hpb)
    · rw [hf b hbT] at hpb
      rcases (hT c).mp hc with rfl | hcT
      · exact absurd hpb (hout b hbT p hpc)
      · rw [hf c hcT] at hpc
        exact h.apart b hbT c hcT p hpb hpc

theorem remove (h : Divided S T f) (ha : a ∈ T) (hS : ∀ p, p ∈ S' ↔ p ∈ S ∧ p ∉ f a)
    (hT : ∀ b, b ∈ T' ↔ b ∈ T ∧ b ≠ a) : Divided S' T' f := by
  refine ⟨fun p => ?_, fun b hb c hc => h.apart b ((hT b).mp hb).1 c ((hT c).mp hc).1⟩
  rw [hS, h.mem]
  constructor
  · rintro ⟨⟨b, hb, hp⟩, hpa⟩
    exact ⟨b, (hT b).mpr ⟨hb, fun he => hpa (he ▸ hp)⟩, hp⟩
  · rintro ⟨b, hb, hp⟩
    obtain ⟨hbT, hba⟩ := (hT b).mp hb
    exact ⟨⟨b, hbT, hp⟩, fun hpa => hba (h.apart b hbT a ha p hp hpa)⟩

/-- The share of an owner that has left is in no one's hands. -/
theorem notMem_of_left (h : Divided S T f) (h' : Divided S' T' f) (hsub : ∀ b ∈ T', b ∈ T)
    (ha : a ∈ T) (hleft : a ∉ T') {p : β} (hp : p ∈ f a) : p ∉ S' := by
  intro hpS
  obtain ⟨b, hb, hpb⟩ := (h'.mem p).mp hpS
  obtain rfl := h.apart a ha b (hsub b hb) p hp hpb
  exact hleft hb

end Divided

end KernelC
