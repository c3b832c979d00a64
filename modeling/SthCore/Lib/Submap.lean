import SthCore.Lib.OrderedMap

/-!
Maps that lose entries.  A map whose entries are all entries of another has no
more of any kind, and what is taken out of a map by key is what its sums lose.
-/

namespace SthCore.Lib

namespace OrderedMap

variable {κ ν : Type*} [Ord κ] [Std.TransOrd κ] [Std.LawfulEqOrd κ]

/-- Every entry of `m` is an entry of `n`. -/
def Sub (m n : OrderedMap κ ν) : Prop := ∀ (k : κ) (v : ν), m[k]? = some v → n[k]? = some v

namespace Sub

variable {m n : OrderedMap κ ν}

omit [Std.LawfulEqOrd κ] in
theorem refl (m : OrderedMap κ ν) : Sub m m := fun _ _ h => h

omit [Std.LawfulEqOrd κ] in
theorem trans {l : OrderedMap κ ν} (h : Sub l m) (h' : Sub m n) : Sub l n :=
  fun k v hk => h' k v (h k v hk)

theorem subset (h : Sub m n) : m.toList ⊆ n.toList := by
  rintro ⟨k, v⟩ he
  rw [Std.ExtTreeMap.mem_toList_iff_getElem?_eq_some] at he ⊢
  exact h k v he

theorem subperm (h : Sub m n) : m.toList.Subperm n.toList :=
  (toList_nodup m).subperm h.subset

theorem length_filter_le (h : Sub m n) (p : κ × ν → Bool) :
    (m.toList.filter p).length ≤ (n.toList.filter p).length :=
  (h.subperm.filter p).length_le

theorem size_le (h : Sub m n) : m.size ≤ n.size := by
  rw [← Std.ExtTreeMap.length_toList, ← Std.ExtTreeMap.length_toList]
  exact h.subperm.length_le

theorem sum_le (h : Sub m n) (f : κ × ν → Nat) :
    (m.toList.map f).sum ≤ (n.toList.map f).sum := by
  obtain ⟨l, hperm, hsub⟩ := h.subperm
  rw [← (hperm.map f).sum_eq]
  exact (hsub.map f).sum_le_sum fun _ _ => Nat.zero_le _

variable [DecidableEq κ]

theorem erase_left (m : OrderedMap κ ν) (k : κ) : Sub (m.erase k) m := by
  intro x v h
  rw [getElem?_erase_eq] at h
  split_ifs at h
  exact h

theorem erase (h : Sub m n) (k : κ) : Sub (m.erase k) (n.erase k) := by
  intro x v hx
  rw [getElem?_erase_eq] at hx ⊢
  split_ifs at hx ⊢
  exact h x v hx

end Sub

variable [DecidableEq κ]

/-- A map without some keys. -/
def eraseAll (m : OrderedMap κ ν) (keys : List κ) : OrderedMap κ ν :=
  keys.foldl (fun m k => m.erase k) m

omit [Std.LawfulEqOrd κ] [DecidableEq κ] in
@[simp] theorem eraseAll_nil (m : OrderedMap κ ν) : m.eraseAll [] = m := rfl

omit [Std.LawfulEqOrd κ] [DecidableEq κ] in
@[simp] theorem eraseAll_cons (m : OrderedMap κ ν) (k : κ) (keys : List κ) :
    m.eraseAll (k :: keys) = eraseAll (m.erase k) keys := rfl

theorem getElem?_eraseAll (m : OrderedMap κ ν) (keys : List κ) (x : κ) :
    (m.eraseAll keys)[x]? = if x ∈ keys then none else m[x]? := by
  induction keys generalizing m with
  | nil => simp
  | cons k rest ih =>
      rw [eraseAll_cons, ih, getElem?_erase_eq]
      by_cases hx : x = k
      · simp [hx]
      · simp [hx, Ne.symm hx]

theorem getElem?_eraseAll_eq_some {m : OrderedMap κ ν} {keys : List κ} {x : κ} {v : ν} :
    (m.eraseAll keys)[x]? = some v ↔ x ∉ keys ∧ m[x]? = some v := by
  rw [getElem?_eraseAll]
  split_ifs with hx
  · simp [hx]
  · simp [hx]

/-- What is left of a map without the keys whose values pass a test. -/
theorem getElem?_eraseAll_filter {m : OrderedMap κ ν} {keys : List κ} {p : ν → Bool}
    (h : ∀ k, k ∈ keys ↔ ∃ v, m[k]? = some v ∧ p v = true) (k : κ) :
    (m.eraseAll keys)[k]? = (m[k]?).filter fun v => !p v := by
  rw [getElem?_eraseAll]
  cases hk : m[k]? with
  | none => simp
  | some v =>
      rw [Option.filter_some]
      by_cases hv : p v = true
      · rw [if_pos ((h k).mpr ⟨v, hk, hv⟩), hv]
        rfl
      · rw [Bool.not_eq_true] at hv
        rw [if_neg, hv]
        · rfl
        · rw [h]
          rintro ⟨w, hw, hwp⟩
          rw [hk, Option.some.injEq] at hw
          rw [← hw, hv] at hwp
          cases hwp

theorem eraseAll_sub (m : OrderedMap κ ν) (keys : List κ) : Sub (m.eraseAll keys) m := by
  intro x v h
  exact (getElem?_eraseAll_eq_some.mp h).2

theorem Sub.eraseAll {m n : OrderedMap κ ν} (h : Sub m n) (keys : List κ) :
    Sub (m.eraseAll keys) (n.eraseAll keys) := by
  intro x v hx
  obtain ⟨hkeys, hx⟩ := getElem?_eraseAll_eq_some.mp hx
  exact getElem?_eraseAll_eq_some.mpr ⟨hkeys, h x v hx⟩

theorem eraseAll_anti (m : OrderedMap κ ν) {keys more : List κ} (h : keys ⊆ more) :
    Sub (m.eraseAll more) (m.eraseAll keys) := by
  intro x v hx
  obtain ⟨hmore, hx⟩ := getElem?_eraseAll_eq_some.mp hx
  exact getElem?_eraseAll_eq_some.mpr ⟨fun hkeys => hmore (h hkeys), hx⟩

/-- An entry and the rest. -/
theorem toList_perm_erase {m : OrderedMap κ ν} {k : κ} {v : ν} (h : m[k]? = some v) :
    m.toList.Perm ((k, v) :: (m.erase k).toList) := by
  have hins := toList_insert_perm (m.erase k) k v
  rwa [insert_erase_of_some m k v h, erase_of_none (m.erase k) k (by simp)] at hins

theorem toList_insert_of_none {m : OrderedMap κ ν} {k : κ} (h : m[k]? = none) (v : ν) :
    (m.insert k v).toList.Perm ((k, v) :: m.toList) := by
  have hins := toList_insert_perm m k v
  rwa [erase_of_none m k h] at hins

/-- Entries taken out by their keys, each with what it weighs, and the rest. -/
theorem sum_eraseAll {α : Type*} (f : κ × ν → Nat) (key : α → κ) (weight : α → Nat)
    {m : OrderedMap κ ν} {out : List α} (hkeys : (out.map key).Nodup)
    (hout : ∀ a ∈ out, ∃ v, m[key a]? = some v ∧ f (key a, v) = weight a) :
    (m.toList.map f).sum =
      (out.map weight).sum + ((m.eraseAll (out.map key)).toList.map f).sum := by
  induction out generalizing m with
  | nil => simp
  | cons a rest ih =>
      obtain ⟨v, hv, hweight⟩ := hout a List.mem_cons_self
      rw [List.map_cons, List.nodup_cons] at hkeys
      have hrest : ∀ b ∈ rest, ∃ v, (m.erase (key a))[key b]? = some v ∧
          f (key b, v) = weight b := by
        intro b hb
        have hne : key a ≠ key b := by
          intro heq
          exact hkeys.1 (heq ▸ List.mem_map_of_mem hb)
        rw [getElem?_erase_eq, if_neg hne]
        exact hout b (List.mem_cons_of_mem a hb)
      rw [((toList_perm_erase hv).map f).sum_eq, List.map_cons, List.sum_cons, hweight,
        ih hkeys.2 hrest, List.map_cons, List.sum_cons, List.map_cons, eraseAll_cons, add_assoc]

theorem size_eraseAll {α : Type*} (key : α → κ) {m : OrderedMap κ ν} {out : List α}
    (hkeys : (out.map key).Nodup) (hout : ∀ a ∈ out, ∃ v, m[key a]? = some v) :
    m.size = out.length + (m.eraseAll (out.map key)).size := by
  have hsum := sum_eraseAll (fun _ => 1) key (fun _ => 1) hkeys fun a ha =>
    (hout a ha).imp fun v hv => ⟨hv, rfl⟩
  simpa [Std.ExtTreeMap.length_toList] using hsum

end OrderedMap

end SthCore.Lib
