import SthCore.Lib.Edits

/-!
Maps that list given entries: writing entries of new keys adds them to the
list, and removing the keys of some takes these out of it.
-/

namespace SthCore.Lib

namespace Edit

variable {κ ν : Type*} [Ord κ] [Std.TransOrd κ] [Std.LawfulEqOrd κ] [DecidableEq κ]

/-- Entries of distinct new keys join the list. -/
theorem toList_run_puts {m : OrderedMap κ ν} {entries : List (κ × ν)}
    (hnodup : (entries.map fun e => e.1).Nodup) (hfresh : ∀ e ∈ entries, m[e.1]? = none) :
    (run m (puts entries)).toList.Perm (entries ++ m.toList) := by
  induction entries generalizing m with
  | nil => exact .refl _
  | cons e rest ih =>
      rw [List.map_cons, List.nodup_cons] at hnodup
      have hnone := hfresh e List.mem_cons_self
      have hinsert := OrderedMap.toList_insert_perm m e.1 e.2
      rw [OrderedMap.erase_of_none m e.1 hnone] at hinsert
      have hrest := ih (m := m.insert e.1 e.2) hnodup.2 fun f hf => by
        rw [OrderedMap.getElem?_insert_eq, if_neg]
        · exact hfresh f (List.mem_cons_of_mem e hf)
        · rintro heq
          exact hnodup.1 (List.mem_map.mpr ⟨f, hf, heq.symm⟩)
      refine hrest.trans ((List.Perm.append_left rest hinsert).trans ?_)
      exact List.perm_middle

/-- Removing the keys of some entries of the list leaves the others. -/
theorem toList_run_drops {m : OrderedMap κ ν} {entries rest : List (κ × ν)}
    (h : m.toList.Perm (entries ++ rest)) :
    (run m (drops (entries.map fun e => e.1))).toList.Perm rest := by
  induction entries generalizing m with
  | nil => exact h
  | cons e tail ih =>
      have hmem : e ∈ m.toList := h.mem_iff.mpr (by simp)
      have hvalue := Std.ExtTreeMap.mem_toList_iff_getElem?_eq_some.mp hmem
      have hinsert := OrderedMap.toList_insert_perm (m.erase e.1) e.1 e.2
      rw [OrderedMap.insert_erase_of_some m e.1 e.2 hvalue,
        OrderedMap.erase_of_none (m.erase e.1) e.1 (by simp)] at hinsert
      exact ih ((hinsert.symm.trans h).cons_inv)

end Edit

end SthCore.Lib
