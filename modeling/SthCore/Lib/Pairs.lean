import Mathlib

/-!
Two lists that agree element by element.
-/

namespace SthCore.Lib

variable {α β : Type*} {R : α → β → Prop} {l : List α} {m : List β}

theorem forall₂_mem_right (h : List.Forall₂ R l m) : ∀ b ∈ m, ∃ a ∈ l, R a b := by
  induction h with
  | nil => simp
  | cons hab hrest ih =>
      intro x hx
      rcases List.mem_cons.mp hx with rfl | hx
      · exact ⟨_, List.mem_cons_self, hab⟩
      · obtain ⟨a, ha, hax⟩ := ih x hx
        exact ⟨a, List.mem_cons_of_mem _ ha, hax⟩

theorem forall₂_mem_left (h : List.Forall₂ R l m) : ∀ a ∈ l, ∃ b ∈ m, R a b :=
  forall₂_mem_right h.flip

/-- Every element has a partner. -/
theorem exists_forall₂ (h : ∀ a ∈ l, ∃ b, R a b) : ∃ m, List.Forall₂ R l m := by
  induction l with
  | nil => exact ⟨[], .nil⟩
  | cons a l ih =>
      obtain ⟨b, hb⟩ := h a List.mem_cons_self
      obtain ⟨m, hm⟩ := ih fun x hx => h x (List.mem_cons_of_mem a hx)
      exact ⟨b :: m, .cons hb hm⟩

theorem map_eq_of_forall₂ {γ : Type*} {f : α → γ} {g : β → γ} (h : List.Forall₂ R l m)
    (hfg : ∀ a b, R a b → f a = g b) : l.map f = m.map g := by
  rw [← List.forall₂_eq_eq_eq, List.forall₂_map_left_iff, List.forall₂_map_right_iff]
  exact h.imp hfg

theorem forall₂_mapIdx {f : Nat → β → β} (h : List.Forall₂ R l m)
    (hf : ∀ i a b, R a b → R a (f i b)) : List.Forall₂ R l (m.mapIdx f) := by
  induction h generalizing f with
  | nil => exact .nil
  | cons hab hrest ih =>
      rw [List.mapIdx_cons]
      exact .cons (hf 0 _ _ hab) (ih fun i => hf (i + 1))

end SthCore.Lib
