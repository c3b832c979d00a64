import SthCore.Lib.Submap

/-!
Results collected in a map by their keys: a later result replaces an earlier one
with its key, so that the map may count fewer than there were.
-/

namespace SthCore.Lib

namespace OrderedMap

variable {κ ν : Type*} [Ord κ] [Std.TransOrd κ] [Std.LawfulEqOrd κ]

/-- The entries of a list, put in one after another. -/
def collect (entries : List (κ × ν)) : OrderedMap κ ν :=
  entries.foldl (fun m e => m.insert e.1 e.2) ∅

omit [Std.LawfulEqOrd κ] in
theorem collect_concat (entries : List (κ × ν)) (e : κ × ν) :
    collect (entries ++ [e]) = (collect entries).insert e.1 e.2 := by
  unfold collect
  rw [List.foldl_append]
  rfl

variable [DecidableEq κ] {entries : List (κ × ν)} {p : ν → Bool}

theorem mem_of_collect {k : κ} {v : ν} (h : (collect entries)[k]? = some v) :
    (k, v) ∈ entries := by
  induction entries using List.reverseRecOn with
  | nil =>
      unfold collect at h
      simp at h
  | append_singleton entries e ih =>
      rw [collect_concat, getElem?_insert_eq] at h
      split_ifs at h with hk
      · rw [← hk, ← Option.some.inj h]
        exact List.mem_append_right _ (List.mem_singleton_self e)
      · exact List.mem_append_left _ (ih h)

/-- An entry that no later one replaces is found in the map. -/
theorem collect_of_last {e : κ × ν} {front back : List (κ × ν)}
    (hlast : ∀ b ∈ back, b.1 ≠ e.1) : (collect (front ++ e :: back))[e.1]? = some e.2 := by
  induction back using List.reverseRecOn with
  | nil => rw [collect_concat, getElem?_insert_eq, if_pos rfl]
  | append_singleton back b ih =>
      have hsplit : front ++ e :: (back ++ [b]) = (front ++ e :: back) ++ [b] := by simp
      rw [hsplit, collect_concat, getElem?_insert_eq,
        if_neg (hlast b (List.mem_append_right _ (List.mem_singleton_self b)))]
      exact ih fun c hc => hlast c (List.mem_append_left _ hc)

/-- How many entries of a map have a value of a kind. -/
def countValues (p : ν → Bool) (m : OrderedMap κ ν) : ℕ := m.toList.countP fun e => p e.2

/-- What an insertion does to the count. -/
theorem countValues_insert (m : OrderedMap κ ν) (k : κ) (v : ν) :
    countValues p (m.insert k v) + (if (m[k]?).any p then 1 else 0) =
      countValues p m + (if p v then 1 else 0) := by
  unfold countValues
  rw [(toList_insert_perm m k v).countP_eq, List.countP_cons]
  cases hk : m[k]? with
  | none =>
      rw [erase_of_none m k hk]
      simp
  | some w =>
      rw [(toList_perm_erase hk).countP_eq, List.countP_cons]
      simp only [Option.any_some]
      omega

theorem countValues_collect_le (p : ν → Bool) (entries : List (κ × ν)) :
    countValues p (collect entries) ≤ entries.countP fun e => p e.2 := by
  induction entries using List.reverseRecOn with
  | nil => simp [collect, countValues]
  | append_singleton entries e ih =>
      have hinsert := countValues_insert (p := p) (collect entries) e.1 e.2
      rw [collect_concat, List.countP_append, List.countP_cons, List.countP_nil]
      omega

/-- No entry of the kind is replaced by a later one. -/
def Unreplaced (p : ν → Bool) (entries : List (κ × ν)) : Prop :=
  entries.Pairwise fun a b => p a.2 = true → a.1 ≠ b.1

/-- The map counts all entries of a kind exactly when none of them is replaced. -/
theorem countValues_collect_eq_iff :
    countValues p (collect entries) = (entries.countP fun e => p e.2) ↔ Unreplaced p entries := by
  induction entries using List.reverseRecOn with
  | nil => simp [collect, countValues, Unreplaced]
  | append_singleton entries e ih =>
      have hle := countValues_collect_le p entries
      have hinsert := countValues_insert (p := p) (collect entries) e.1 e.2
      have hcount : countValues p (collect (entries ++ [e])) =
          ((entries ++ [e]).countP fun e => p e.2) ↔
          countValues p (collect entries) = (entries.countP fun e => p e.2) ∧
            ¬ ((collect entries)[e.1]?).any p = true := by
        rw [collect_concat, List.countP_append, List.countP_cons, List.countP_nil]
        by_cases hfound : ((collect entries)[e.1]?).any p = true
        · rw [if_pos hfound] at hinsert
          refine ⟨fun h => ?_, fun h => absurd hfound h.2⟩
          omega
        · rw [if_neg hfound] at hinsert
          rw [and_iff_left hfound]
          omega
      rw [hcount, ih]
      unfold Unreplaced
      rw [List.pairwise_append]
      constructor
      · rintro ⟨hpairs, hnew⟩
        refine ⟨hpairs, List.pairwise_singleton _ _, fun a ha b hb hp hkey => ?_⟩
        rw [List.mem_singleton.mp hb] at hkey
        obtain ⟨front, back, rfl⟩ := List.append_of_mem ha
        have hlater := (List.pairwise_cons.mp (List.pairwise_append.mp hpairs).2.1).1
        rw [← hkey, collect_of_last fun b hb hsame => hlater b hb hp hsame.symm] at hnew
        exact hnew hp
      · rintro ⟨hpairs, -, hnew⟩
        refine ⟨hpairs, fun hany => ?_⟩
        cases hk : (collect entries)[e.1]? with
        | none =>
            rw [hk] at hany
            cases hany
        | some v =>
            rw [hk] at hany
            exact hnew _ (mem_of_collect hk) e (List.mem_singleton_self e) hany rfl

end OrderedMap

end SthCore.Lib
