import Mathlib

/-!
Finite maps with ordered keys, as tree maps up to extensionality.  This file
adds what the standard library leaves out: entries with a default value, sums
over all entries, and the first entry that satisfies a test.
-/

namespace SthCore.Lib

/-- Pairs are compared lexicographically. -/
instance instOrdPair {α β : Type*} [Ord α] [Ord β] : Ord (α × β) := lexOrd

/-- A finite map that is iterated in key order. -/
abbrev OrderedMap (κ : Type*) (ν : Type*) [Ord κ] := Std.ExtTreeMap κ ν compare

namespace OrderedMap

variable {κ ν : Type*} [Ord κ] [Std.TransOrd κ] [Std.LawfulEqOrd κ]

theorem getElem?_insert_eq (m : OrderedMap κ ν) (k : κ) (v : ν) (x : κ) [DecidableEq κ] :
    (m.insert k v)[x]? = if k = x then some v else m[x]? := by
  rw [Std.ExtTreeMap.getElem?_insert]
  by_cases h : k = x
  · simp [h]
  · simp [h]

theorem getElem?_erase_eq (m : OrderedMap κ ν) (k x : κ) [DecidableEq κ] :
    (m.erase k)[x]? = if k = x then none else m[x]? := by
  rw [Std.ExtTreeMap.getElem?_erase]
  by_cases h : k = x
  · simp [h]
  · simp [h]

/-- The entry of `k`, created from `d` when it is absent, changed by `f`. -/
def upsert (m : OrderedMap κ ν) (k : κ) (d : ν) (f : ν → ν) : OrderedMap κ ν :=
  m.insert k (f (m[k]?.getD d))

theorem getD_upsert [DecidableEq κ] (m : OrderedMap κ ν) (k : κ) (d : ν) (f : ν → ν) (x : κ) :
    (m.upsert k d f)[x]?.getD d = if k = x then f (m[k]?.getD d) else m[x]?.getD d := by
  rw [upsert, getElem?_insert_eq]
  split <;> rfl

theorem toList_nodup (m : OrderedMap κ ν) : m.toList.Nodup := by
  refine (Std.ExtTreeMap.distinct_keys_toList (t := m)).imp ?_
  rintro a b h rfl
  exact h Std.ReflOrd.compare_self

theorem toList_insert_perm [DecidableEq κ] (m : OrderedMap κ ν) (k : κ) (v : ν) :
    (m.insert k v).toList.Perm ((k, v) :: (m.erase k).toList) := by
  have hmem : (k, v) ∉ (m.erase k).toList := by
    simp
  rw [List.perm_ext_iff_of_nodup (toList_nodup _) (List.nodup_cons.mpr ⟨hmem, toList_nodup _⟩)]
  rintro ⟨x, w⟩
  simp only [Std.ExtTreeMap.mem_toList_iff_getElem?_eq_some, List.mem_cons, Prod.mk.injEq,
    getElem?_insert_eq, getElem?_erase_eq]
  by_cases h : k = x
  · subst h
    simp [eq_comm]
  · simp [h, eq_comm]

omit [Std.LawfulEqOrd κ] in
/-- The last of the entries that pass a test has the greatest key among them. -/
theorem le_getLast_filter (m : OrderedMap κ ν) (p : κ × ν → Bool) {e last : κ × ν}
    (he : e ∈ m.toList) (hp : p e = true) (hlast : (m.toList.filter p).getLast? = some last) :
    e = last ∨ compare e.1 last.1 = .lt := by
  obtain ⟨init, hinit⟩ := List.getLast?_eq_some_iff.mp hlast
  have hmem : e ∈ init ++ [last] := hinit ▸ List.mem_filter.mpr ⟨he, hp⟩
  have hsorted := (Std.ExtTreeMap.ordered_keys_toList (t := m)).filter p
  rw [hinit, List.pairwise_append] at hsorted
  rcases List.mem_append.mp hmem with hfront | hback
  · exact .inr (hsorted.2.2 e hfront last (List.mem_singleton_self last))
  · exact .inl (List.mem_singleton.mp hback)

/-- Sum of `f` over all entries. -/
def total (f : κ → ν → Int) (m : OrderedMap κ ν) : Int :=
  (m.toList.map fun e => f e.1 e.2).sum

theorem total_insert [DecidableEq κ] (f : κ → ν → Int) (m : OrderedMap κ ν) (k : κ) (v : ν) :
    total f (m.insert k v) = f k v + total f (m.erase k) := by
  have h := ((toList_insert_perm m k v).map fun e => f e.1 e.2).sum_eq
  simpa [total] using h

theorem erase_of_none [DecidableEq κ] (m : OrderedMap κ ν) (k : κ) (h : m[k]? = none) :
    m.erase k = m := by
  apply Std.ExtTreeMap.ext_getElem?
  intro x
  rw [getElem?_erase_eq]
  by_cases hx : k = x
  · subst hx
    simp [h]
  · simp [hx]

theorem insert_erase_of_some [DecidableEq κ] (m : OrderedMap κ ν) (k : κ) (v : ν)
    (h : m[k]? = some v) : (m.erase k).insert k v = m := by
  apply Std.ExtTreeMap.ext_getElem?
  intro x
  rw [getElem?_insert_eq, getElem?_erase_eq]
  by_cases hx : k = x
  · subst hx
    simp [h]
  · simp [hx]

theorem total_erase [DecidableEq κ] (f : κ → ν → Int) (m : OrderedMap κ ν) (k : κ) :
    total f m = (m[k]?.elim 0 (f k)) + total f (m.erase k) := by
  cases h : m[k]? with
  | none => simp [erase_of_none m k h]
  | some v =>
      have hins := total_insert f (m.erase k) k v
      rw [insert_erase_of_some m k v h] at hins
      rw [hins]
      congr 2
      apply erase_of_none
      simp

/-- Overwriting one entry moves the sum by the difference of the two values. -/
theorem total_insert_sub [DecidableEq κ] (f : κ → ν → Int) (m : OrderedMap κ ν) (k : κ) (v : ν) :
    total f (m.insert k v) = total f m + (f k v - m[k]?.elim 0 (f k)) := by
  rw [total_insert, total_erase f m k]
  omega

end OrderedMap

section Destutter

variable {α : Type*} [DecidableEq α]

theorem mem_destutter'_ne (l : List α) (a b : α) :
    b ∈ l.destutter' (· ≠ ·) a ↔ b = a ∨ b ∈ l := by
  induction l generalizing a with
  | nil => simp
  | cons c rest ih =>
      by_cases hac : a = c
      · subst hac
        simp [ih]
      · simp [hac, ih]

/-- Dropping repetitions drops no value. -/
theorem mem_destutter_ne (l : List α) (b : α) : b ∈ l.destutter (· ≠ ·) ↔ b ∈ l := by
  cases l with
  | nil => simp
  | cons a rest => rw [List.destutter_cons', mem_destutter'_ne, List.mem_cons]

end Destutter

end SthCore.Lib
