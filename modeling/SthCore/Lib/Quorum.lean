import Mathlib

/-!
Quorums of more than two thirds of a finite set.
-/

namespace SthCore.Lib

variable {α : Type*} [DecidableEq α] {s a b f : Finset α}

/-- Two quorums share more than a third of the set. -/
theorem quorum_inter (ha : a ⊆ s) (hb : b ⊆ s) (hqa : s.card * 2 / 3 + 1 ≤ a.card)
    (hqb : s.card * 2 / 3 + 1 ≤ b.card) : s.card / 3 + 1 ≤ (a ∩ b).card := by
  have hunion : (a ∪ b).card ≤ s.card := Finset.card_le_card (Finset.union_subset ha hb)
  have hsum := Finset.card_union_add_card_inter a b
  omega

/-- They share one outside a set that has no more than a third. -/
theorem exists_mem_quorums (ha : a ⊆ s) (hb : b ⊆ s) (hqa : s.card * 2 / 3 + 1 ≤ a.card)
    (hqb : s.card * 2 / 3 + 1 ≤ b.card) (hf : (s ∩ f).card ≤ s.card / 3) :
    ∃ x, x ∈ a ∧ x ∈ b ∧ x ∉ f := by
  have hinter := quorum_inter ha hb hqa hqb
  by_contra hall
  have hsub : a ∩ b ⊆ s ∩ f := by
    intro x hx
    obtain ⟨hxa, hxb⟩ := Finset.mem_inter.mp hx
    refine Finset.mem_inter.mpr ⟨ha hxa, ?_⟩
    by_contra hxf
    exact hall ⟨x, hxa, hxb, hxf⟩
  have hcard := Finset.card_le_card hsub
  omega

end SthCore.Lib
