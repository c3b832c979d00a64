import SthCore.Lib.Ledger

/-!
Sequences of insertions and removals.  The last edit of a key decides its value,
so edits of different keys can be reordered at will.
-/

namespace SthCore.Lib

/-- An insertion, or a removal when there is no value. -/
abbrev Edit (κ ν : Type*) := κ × Option ν

namespace Edit

variable {κ ν : Type*}

/-- The removals of a list of keys. -/
def drops (keys : List κ) : List (Edit κ ν) := keys.map fun k => (k, none)

/-- The insertions of a list of entries. -/
def puts (entries : List (κ × ν)) : List (Edit κ ν) := entries.map fun e => (e.1, some e.2)

@[simp] theorem keys_drops (keys : List κ) :
    (drops keys : List (Edit κ ν)).map (fun e => e.1) = keys := by
  simp [drops, Function.comp_def]

@[simp] theorem keys_puts (entries : List (κ × ν)) :
    (puts entries).map (fun e => e.1) = entries.map fun e => e.1 := by
  simp [puts, Function.comp_def]

section Last

variable [DecidableEq κ]

/-- The last edit of a key. -/
def last (edits : List (Edit κ ν)) (k : κ) : Option (Option ν) :=
  (edits.reverse.find? fun e => e.1 = k).map fun e => e.2

@[simp] theorem last_nil (k : κ) : last ([] : List (Edit κ ν)) k = none := rfl

theorem last_append (l l' : List (Edit κ ν)) (k : κ) :
    last (l ++ l') k = (last l' k).or (last l k) := by
  simp only [last, List.reverse_append, List.find?_append]
  cases l'.reverse.find? fun e => decide (e.1 = k) <;> rfl

theorem last_singleton (e : Edit κ ν) (k : κ) :
    last [e] k = if e.1 = k then some e.2 else none := by
  by_cases h : e.1 = k
  · simp [last, h]
  · simp [last, h]

theorem last_cons (e : Edit κ ν) (l : List (Edit κ ν)) (k : κ) :
    last (e :: l) k = (last l k).or (if e.1 = k then some e.2 else none) := by
  rw [← List.singleton_append, last_append, last_singleton]

theorem last_eq_none {edits : List (Edit κ ν)} {k : κ} :
    last edits k = none ↔ k ∉ edits.map fun e => e.1 := by
  induction edits with
  | nil => simp
  | cons e l ih =>
      rw [last_cons, List.map_cons, List.mem_cons, Option.or_eq_none_iff, ih]
      by_cases h : e.1 = k
      · simp [h]
      · simp [h, Ne.symm h]

/-- A key with edits takes the value of one of them. -/
theorem mem_of_last {edits : List (Edit κ ν)} {k : κ} {v : Option ν}
    (h : last edits k = some v) : (k, v) ∈ edits := by
  induction edits with
  | nil => simp at h
  | cons e l ih =>
      rw [last_cons] at h
      cases hl : last l k with
      | some w =>
          rw [hl, Option.some_or] at h
          exact List.mem_cons_of_mem e (ih (hl.trans h))
      | none =>
          rw [hl, Option.none_or] at h
          split_ifs at h with he
          injection h with h
          subst he h
          exact List.mem_cons_self

/-- When all edits of a key agree, any of them decides. -/
theorem last_of_mem {edits : List (Edit κ ν)} {k : κ} {v : Option ν} (h : (k, v) ∈ edits)
    (hall : ∀ e ∈ edits, e.1 = k → e.2 = v) : last edits k = some v := by
  cases hl : last edits k with
  | none =>
      rw [last_eq_none] at hl
      exact absurd (List.mem_map_of_mem h) hl
  | some w => exact congrArg some (hall (k, w) (mem_of_last hl) rfl)

theorem last_drops (keys : List κ) (k : κ) :
    last (drops keys : List (Edit κ ν)) k = if k ∈ keys then some none else none := by
  split_ifs with h
  · refine last_of_mem ?_ ?_
    · simpa [drops] using h
    · intro e he _
      obtain ⟨k', -, rfl⟩ := List.mem_map.mp he
      rfl
  · rw [last_eq_none, keys_drops]
    exact h

end Last

variable [Ord κ] [Std.TransOrd κ] [Std.LawfulEqOrd κ]

/-- One edit of a map. -/
def apply (m : OrderedMap κ ν) (e : Edit κ ν) : OrderedMap κ ν :=
  match e.2 with
  | some v => m.insert e.1 v
  | none => m.erase e.1

/-- All edits of a list, in order. -/
def run (m : OrderedMap κ ν) (edits : List (Edit κ ν)) : OrderedMap κ ν := edits.foldl apply m

omit [Std.LawfulEqOrd κ] in
@[simp] theorem run_nil (m : OrderedMap κ ν) : run m [] = m := rfl

omit [Std.LawfulEqOrd κ] in
@[simp] theorem run_cons (m : OrderedMap κ ν) (e : Edit κ ν) (l : List (Edit κ ν)) :
    run m (e :: l) = run (apply m e) l := rfl

omit [Std.LawfulEqOrd κ] in
theorem run_append (m : OrderedMap κ ν) (l l' : List (Edit κ ν)) :
    run m (l ++ l') = run (run m l) l' :=
  List.foldl_append

omit [Std.LawfulEqOrd κ] in
theorem run_drops (m : OrderedMap κ ν) (keys : List κ) :
    run m (drops keys) = keys.foldl (fun m k => m.erase k) m :=
  List.foldl_map

omit [Std.LawfulEqOrd κ] in
theorem run_puts (m : OrderedMap κ ν) (entries : List (κ × ν)) :
    run m (puts entries) = entries.foldl (fun m e => m.insert e.1 e.2) m :=
  List.foldl_map

variable [DecidableEq κ]

theorem getElem?_apply (m : OrderedMap κ ν) (e : Edit κ ν) (k : κ) :
    (apply m e)[k]? = if e.1 = k then e.2 else m[k]? := by
  rcases e with ⟨x, _ | v⟩
  · simp [apply, OrderedMap.getElem?_erase_eq]
  · simp [apply, OrderedMap.getElem?_insert_eq]

/-- The last edit of a key, or the old value. -/
theorem getElem?_run (m : OrderedMap κ ν) (edits : List (Edit κ ν)) (k : κ) :
    (run m edits)[k]? = (last edits k).getD m[k]? := by
  induction edits generalizing m with
  | nil => rfl
  | cons e l ih =>
      rw [run_cons, ih, last_cons, getElem?_apply]
      cases last l k with
      | some v => rfl
      | none =>
          split_ifs with h
          · simp
          · simp

/-- Edits of distinct keys move a sum by the differences they make one by one. -/
theorem total_run (f : κ → ν → Int) (m : OrderedMap κ ν) (edits : List (Edit κ ν))
    (hnodup : (edits.map fun e => e.1).Nodup) :
    OrderedMap.total f (run m edits) = OrderedMap.total f m +
      (edits.map fun e => e.2.elim 0 (f e.1) - OrderedMap.value f m e.1).sum := by
  let p : Postings κ :=
    edits.map fun e => (e.1, e.2.elim 0 (f e.1) - OrderedMap.value f m e.1)
  have hp : p.total = (edits.map fun e => e.2.elim 0 (f e.1) - OrderedMap.value f m e.1).sum := by
    simp [p, Postings.total, Function.comp_def]
  rw [← hp]
  apply OrderedMap.total_posts
  intro k
  simp only [OrderedMap.value, getElem?_run]
  by_cases hk : k ∈ edits.map fun e => e.1
  · obtain ⟨e, he, rfl⟩ := List.mem_map.mp hk
    have hall : ∀ e' ∈ edits, e'.1 = e.1 → e'.2 = e.2 := fun e' he' heq =>
      congrArg Prod.snd (List.inj_on_of_nodup_map hnodup he' he heq)
    have hnet : p.net e.1 = e.2.elim 0 (f e.1) - OrderedMap.value f m e.1 := by
      clear hp hk hall
      induction edits with
      | nil => simp at he
      | cons d l ih =>
          rw [List.map_cons, List.nodup_cons] at hnodup
          simp only [p, List.map_cons, Postings.net_cons]
          rcases List.mem_cons.mp he with rfl | hmem
          · rw [if_pos rfl, Postings.net_eq_zero_of_notMem, add_zero]
            simpa [Function.comp_def] using hnodup.1
          · have hne : d.1 ≠ e.1 := fun heq => hnodup.1 (heq ▸ List.mem_map_of_mem hmem)
            rw [if_neg hne, zero_add]
            exact ih hnodup.2 hmem
    rw [last_of_mem (v := e.2) he hall, hnet]
    simp [OrderedMap.value]
  · rw [last_eq_none.mpr hk, Postings.net_eq_zero_of_notMem]
    · simp
    · simpa [p, Function.comp_def] using hk

end Edit

end SthCore.Lib
