import Mathlib.Data.List.ReduceOption

/-!
Choosing from a list before or after a partial map.
-/

namespace SthCore.Lib

/-- Choosing before and after a partial map, when the choices agree. -/
theorem filterMap_filter_of_iff {α β : Type*} {p : α → Bool} {q : β → Bool} {f : α → Option β}
    (h : ∀ a b, f a = some b → (p a = true ↔ q b = true)) (l : List α) :
    (l.filter p).filterMap f = (l.filterMap f).filter q := by
  induction l with
  | nil => rfl
  | cons a rest ih =>
      cases hf : f a with
      | none =>
          rw [List.filterMap_cons_none hf, ← ih, List.filter_cons]
          split_ifs
          · exact List.filterMap_cons_none hf
          · rfl
      | some b =>
          rw [List.filterMap_cons_some hf, List.filter_cons, List.filter_cons, ← ih]
          by_cases hp : p a = true
          · rw [if_pos hp, if_pos ((h a b hf).mp hp), List.filterMap_cons_some hf]
          · rw [if_neg hp, if_neg (mt (h a b hf).mpr hp)]

end SthCore.Lib
