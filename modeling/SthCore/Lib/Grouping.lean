import SthCore.Lib.OrderedMap
import SthCore.Lib.Result

/-!
The elements of a list grouped by a key, in an ordered map.
-/

namespace SthCore.Lib

/-- A fold over what a fallible function makes of a list. -/
theorem foldlM_of_mapM_ok {ε α β : Type} {σ : Type} {f : α → Except ε β} {g : σ → β → σ}
    {l : List α} {bs : List β} (h : l.mapM f = .ok bs) (s : σ) :
    (l.foldlM (fun s a => do return g s (← f a)) s : Except ε σ) = .ok (bs.foldl g s) := by
  have hall := forall₂_of_mapM_ok h
  clear h
  induction hall generalizing s with
  | nil => rfl
  | cons hab hrest ih =>
      refine foldlM_cons_ok.mpr ⟨_, ?_, ih _⟩
      rw [hab]
      rfl

/-- Of lists put together, each with its own key, each comes back as it was. -/
theorem filter_flatMap {α β κ : Type} [DecidableEq κ] {key : α → κ} {f : β → List α} {g : β → κ}
    {bs : List β}
    (hnodup : (bs.map g).Nodup) (hkey : ∀ b ∈ bs, ∀ a ∈ f b, key a = g b) {b : β}
    (hb : b ∈ bs) : ((bs.flatMap f).filter fun a => key a = g b) = f b := by
  induction bs with
  | nil => cases hb
  | cons c bs ih =>
      rw [List.map_cons, List.nodup_cons] at hnodup
      obtain ⟨hnew, hnodup⟩ := hnodup
      have hlater : ∀ b ∈ bs, g c ≠ g b := by
        intro b hb heq
        exact hnew (List.mem_map.mpr ⟨b, hb, heq.symm⟩)
      rw [List.flatMap_cons, List.filter_append]
      rcases List.mem_cons.mp hb with rfl | hb
      · have hown : (f b).filter (fun a => key a = g b) = f b := by
          rw [List.filter_eq_self]
          exact fun a ha => decide_eq_true (hkey b List.mem_cons_self a ha)
        have hrest : (bs.flatMap f).filter (fun a => key a = g b) = [] := by
          rw [List.filter_eq_nil_iff]
          intro a ha
          obtain ⟨c, hc, ha⟩ := List.mem_flatMap.mp ha
          rw [hkey c (List.mem_cons_of_mem _ hc) a ha]
          simpa using (hlater c hc).symm
        rw [hown, hrest, List.append_nil]
      · have hother : (f c).filter (fun a => key a = g b) = [] := by
          rw [List.filter_eq_nil_iff]
          intro a ha
          rw [hkey c List.mem_cons_self a ha]
          simpa using hlater b hb
        rw [hother, List.nil_append]
        exact ih hnodup (fun b hb => hkey b (List.mem_cons_of_mem _ hb)) hb

variable {α κ : Type} [Ord κ] [Std.TransOrd κ] [Std.LawfulEqOrd κ] [DecidableEq κ]

/-- The elements with each key, in the order of the list. -/
def group (key : α → κ) (l : List α) : OrderedMap κ (List α) :=
  l.foldl (fun m a => m.upsert (key a) [] (· ++ [a])) ∅

variable {key : α → κ} {l : List α}

theorem getD_group (k : κ) : (group key l)[k]?.getD [] = l.filter fun a => key a = k := by
  have hgen : ∀ m : OrderedMap κ (List α),
      (l.foldl (fun m a => m.upsert (key a) [] (· ++ [a])) m)[k]?.getD [] =
        m[k]?.getD [] ++ l.filter fun a => key a = k := by
    induction l with
    | nil => intro m; simp
    | cons a l ih =>
        intro m
        rw [List.foldl_cons, ih, OrderedMap.getD_upsert, List.filter_cons]
        by_cases hk : key a = k
        · simp [hk]
        · simp [hk]
  unfold group
  rw [hgen]
  simp

/-- No element is lost or doubled. -/
theorem sum_length_group : ((group key l).toList.map fun e => e.2.length).sum = l.length := by
  have htotal : ∀ m : OrderedMap κ (List α),
      (((m.toList.map fun e => e.2.length).sum : Nat) : Int) =
        m.total fun _ v => (v.length : Int) := by
    intro m
    unfold OrderedMap.total
    rw [Nat.cast_list_sum, List.map_map]
    rfl
  have hgen : ∀ m : OrderedMap κ (List α),
      (l.foldl (fun m a => m.upsert (key a) [] (· ++ [a])) m).total
          (fun _ v => (v.length : Int)) =
        m.total (fun _ v => (v.length : Int)) + l.length := by
    induction l with
    | nil => intro m; simp
    | cons a l ih =>
        intro m
        rw [List.foldl_cons, ih, OrderedMap.upsert, OrderedMap.total_insert_sub]
        cases h : m[key a]? with
        | none =>
            simp
            omega
        | some v =>
            simp
            omega
  have h := hgen ∅
  rw [← htotal] at h
  unfold group
  have hempty : (∅ : OrderedMap κ (List α)).total (fun _ v => (v.length : Int)) = 0 := by
    unfold OrderedMap.total
    rw [Std.ExtTreeMap.toList_eq_nil_iff.mpr rfl]
    rfl
  rw [hempty] at h
  omega

end SthCore.Lib
