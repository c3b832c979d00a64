import Mathlib

/-!
Values that only grow, each told to all others when it does: a node that tells
the rest of what it took leaves no one behind once nothing is on its way.
-/

namespace SthCore.Lib

variable {α β : Type*} [LinearOrder β]

/-- What any node has, every member has too or is about to hear. -/
def Spread (members : List α) (value : α → β) (flight : α → β → Prop) : Prop :=
  ∀ a, ∀ b ∈ members, value a ≤ value b ∨ ∃ v, flight b v ∧ value a ≤ v

namespace Spread

variable {members : List α} {value value' : α → β} {flight flight' : α → β → Prop}

theorem const (v : β) : Spread members (fun _ => v) flight := fun _ _ _ => .inl le_rfl

/-- Nodes whose value grows tell the others, and a message is on its way until it is heard. -/
theorem step (h : Spread members value flight) (hup : ∀ a, value a ≤ value' a)
    (htold : ∀ a, value a < value' a → ∀ b ∈ members, b ≠ a → ∃ v, flight' b v ∧ value' a ≤ v)
    (hkeep : ∀ b v, flight b v → flight' b v ∨ v ≤ value' b) :
    Spread members value' flight' := by
  intro a b hb
  by_cases hab : b = a
  · exact .inl (hab ▸ le_rfl)
  rcases (hup a).lt_or_eq with hgrown | hsame
  · exact .inr (htold a hgrown b hb hab)
  · rw [← hsame]
    rcases h a b hb with hle | ⟨v, hflight, hle⟩
    · exact .inl (hle.trans (hup b))
    · rcases hkeep b v hflight with hstill | hheard
      · exact .inr ⟨v, hstill, hle⟩
      · exact .inl (hle.trans hheard)

/-- More messages do no harm. -/
theorem mono (h : Spread members value flight) (hmore : ∀ b v, flight b v → flight' b v) :
    Spread members value flight' :=
  h.step (fun _ => le_rfl) (fun _ hlt => absurd hlt (lt_irrefl _))
    fun b v hflight => .inl (hmore b v hflight)

/-- With nothing on its way all members agree. -/
theorem settled (h : Spread members value flight) (hnone : ∀ b v, ¬ flight b v) {b : α}
    (hb : b ∈ members) (a : α) : value a ≤ value b := by
  rcases h a b hb with hle | ⟨v, hflight, -⟩
  · exact hle
  · exact absurd hflight (hnone b v)

end Spread

end SthCore.Lib
