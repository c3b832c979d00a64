import SthCore.Lib.OrderedMap

/-!
An index that is the inverse of a partial function: each value is listed once,
with the key that has it.
-/

namespace SthCore.Lib

variable {κ ν μ : Type*} [Ord ν] [Std.TransOrd ν] [Std.LawfulEqOrd ν]

/-- The index lists exactly the values of `f`. -/
def Inverse (index : OrderedMap ν κ) (f : κ → Option ν) : Prop :=
  ∀ v k, index[v]? = some k ↔ f k = some v

namespace Inverse

variable {index : OrderedMap ν κ} {f g : κ → Option ν}

omit [Std.LawfulEqOrd ν] in
/-- No value is taken twice. -/
theorem injective (h : Inverse index f) {v : ν} {k l : κ} (hk : f k = some v)
    (hl : f l = some v) : k = l := by
  have hkv := (h v k).mpr hk
  rw [(h v l).mpr hl] at hkv
  injection hkv with hkv
  exact hkv.symm

omit [Std.LawfulEqOrd ν] in
theorem congr (h : Inverse index f) (hfg : ∀ k, g k = f k) : Inverse index g := by
  intro v k
  rw [hfg]
  exact h v k

/-- A key without a value, or with this one, gets a value that no other key has. -/
theorem insert [DecidableEq κ] [DecidableEq ν] (h : Inverse index f) {k : κ} {v : ν}
    (hown : f k = none ∨ f k = some v) (hfree : ∀ l, f l = some v → l = k)
    (hg : ∀ l, g l = if l = k then some v else f l) : Inverse (index.insert v k) g := by
  intro w l
  rw [OrderedMap.getElem?_insert_eq, hg]
  by_cases hl : l = k
  · subst hl
    by_cases hw : v = w
    · simp [hw]
    · simp only [hw, if_false, if_true, Option.some.injEq, iff_false, h w l]
      rcases hown with hnone | hsome
      · simp [hnone]
      · simpa [hsome] using hw
  · by_cases hw : v = w
    · subst hw
      simp only [if_true, hl, if_false, Option.some.injEq]
      constructor
      · intro heq
        exact absurd heq.symm hl
      · intro hfl
        exact absurd (hfree l hfl) hl
    · simp only [hw, if_false, hl]
      exact h w l

/-- A key loses its value. -/
theorem erase [DecidableEq κ] [DecidableEq ν] (h : Inverse index f) {k : κ}
    (hg : ∀ l, g l = if l = k then none else f l) :
    Inverse (match f k with
      | some v => index.erase v
      | none => index) g := by
  intro w l
  rw [hg]
  cases hk : f k with
  | none =>
      rw [h w l]
      by_cases hl : l = k
      · subst hl
        simp [hk]
      · simp [hl]
  | some v =>
      simp only [OrderedMap.getElem?_erase_eq]
      by_cases hl : l = k
      · subst hl
        simp only [if_true]
        split_ifs with hw
        · simp
        · simp only [h w l, hk, Option.some.injEq]
          simp [hw]
      · simp only [hl, if_false]
        split_ifs with hw
        · subst hw
          simp only [false_iff]
          intro hfl
          exact hl (h.injective hfl hk)
        · exact h w l

/-- The keys that the index lists are the keys of a map whose entry has a value. -/
theorem keys_perm [Ord κ] [Std.TransOrd κ] [Std.LawfulEqOrd κ] (h : Inverse index f)
    {m : OrderedMap κ μ} {value : μ → Option ν} (hf : ∀ k, f k = m[k]?.bind value) :
    (index.toList.map (·.2)).Perm
      ((m.toList.filter fun e => (value e.2).isSome).map (·.1)) := by
  have hindex : (index.toList.map (·.2)).Nodup := by
    refine List.Nodup.map_on ?_ (OrderedMap.toList_nodup index)
    rintro ⟨v, k⟩ hx ⟨w, l⟩ hy rfl
    rw [Std.ExtTreeMap.mem_toList_iff_getElem?_eq_some] at hx hy
    have hv := (h v k).mp hx
    rw [(h w k).mp hy] at hv
    injection hv with hv
    rw [hv]
  have hentries : ((m.toList.filter fun e => (value e.2).isSome).map (·.1)).Nodup := by
    refine List.Nodup.map_on ?_ ((OrderedMap.toList_nodup m).filter _)
    rintro ⟨k, x⟩ hx ⟨l, y⟩ hy rfl
    rw [List.mem_filter, Std.ExtTreeMap.mem_toList_iff_getElem?_eq_some] at hx hy
    have hxy := hx.1.symm.trans hy.1
    injection hxy with hxy
    rw [hxy]
  rw [List.perm_ext_iff_of_nodup hindex hentries]
  intro k
  rw [List.mem_map, List.mem_map]
  constructor
  · rintro ⟨⟨v, l⟩, hmem, rfl⟩
    rw [Std.ExtTreeMap.mem_toList_iff_getElem?_eq_some, h v l, hf] at hmem
    obtain ⟨x, hx, hv⟩ := Option.bind_eq_some_iff.mp hmem
    refine ⟨(l, x), List.mem_filter.mpr ⟨?_, by simp [hv]⟩, rfl⟩
    exact Std.ExtTreeMap.mem_toList_iff_getElem?_eq_some.mpr hx
  · rintro ⟨⟨l, x⟩, hmem, rfl⟩
    rw [List.mem_filter, Std.ExtTreeMap.mem_toList_iff_getElem?_eq_some] at hmem
    obtain ⟨v, hv⟩ := Option.isSome_iff_exists.mp hmem.2
    refine ⟨(v, l), ?_, rfl⟩
    rw [Std.ExtTreeMap.mem_toList_iff_getElem?_eq_some, h v l, hf, hmem.1]
    exact hv

end Inverse

end SthCore.Lib
