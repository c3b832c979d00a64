import SthCore.Lib.OrderedMap

/-!
Walking through a map that changes meanwhile.  The walk keeps the last key it
has seen and asks for the next one, so that an entry that stays is not missed.
-/

namespace SthCore.Lib

namespace OrderedMap

variable {κ ν : Type*} [Ord κ]

/-- Whether a walk at `cursor` has a key still ahead of it. -/
def ahead (cursor : Option κ) (k : κ) : Bool :=
  match cursor with
  | none => true
  | some c => compare c k == .lt

@[simp] theorem ahead_none (k : κ) : ahead none k = true := rfl

theorem ahead_some {c k : κ} : ahead (some c) k = true ↔ compare c k = .lt := by
  unfold ahead
  rw [beq_iff_eq]

variable [Std.TransOrd κ]

/-- The next entry of a walk through the entries that satisfy a test. -/
def nextEntry (m : OrderedMap κ ν) (p : κ × ν → Bool) (cursor : Option κ) : Option (κ × ν) :=
  m.toList.find? fun e => p e && ahead cursor e.1

/-- An entry that is ahead is the next one, or it stays ahead. -/
theorem nextEntry_of_mem {m : OrderedMap κ ν} {p : κ × ν → Bool} {cursor : Option κ}
    {e : κ × ν} (he : e ∈ m.toList) (hp : p e = true) (hahead : ahead cursor e.1 = true) :
    ∃ next, m.nextEntry p cursor = some next ∧
      (e = next ∨ ahead (some next.1) e.1 = true) := by
  have hsome : (m.nextEntry p cursor).isSome := by
    unfold nextEntry
    rw [List.find?_isSome]
    exact ⟨e, he, by rw [hp, hahead]; rfl⟩
  obtain ⟨next, hnext⟩ := Option.isSome_iff_exists.mp hsome
  refine ⟨next, hnext, ?_⟩
  obtain ⟨-, front, back, hsplit, hfront⟩ := List.find?_eq_some_iff_append.mp hnext
  have hsorted := Std.ExtTreeMap.ordered_keys_toList (t := m)
  rw [hsplit] at he hsorted
  rcases List.mem_append.mp he with he | he
  · have hskipped := hfront e he
    rw [hp, hahead] at hskipped
    cases hskipped
  · rcases List.mem_cons.mp he with rfl | he
    · exact .inl rfl
    · right
      rw [ahead_some]
      exact (List.pairwise_cons.mp (List.pairwise_append.mp hsorted).2.1).1 e he

/-- What a walk has still to come to. -/
def remaining (m : OrderedMap κ ν) (p : κ × ν → Bool) (cursor : Option κ) : List (κ × ν) :=
  m.toList.filter fun e => p e && ahead cursor e.1

theorem remaining_none (m : OrderedMap κ ν) (p : κ × ν → Bool) :
    m.remaining p none = m.toList.filter p := by
  unfold remaining
  congr 1
  funext e
  rw [ahead_none, Bool.and_true]

theorem nextEntry_eq_head? (m : OrderedMap κ ν) (p : κ × ν → Bool) (cursor : Option κ) :
    m.nextEntry p cursor = (m.remaining p cursor).head? := by
  unfold nextEntry remaining
  rw [List.head?_filter]

/-- Maps that agree on the entries that satisfy a test list the same ones. -/
theorem filter_toList_congr [Std.LawfulEqOrd κ] {m m' : OrderedMap κ ν} {p : κ × ν → Bool}
    (h : ∀ k v, p (k, v) = true → (m[k]? = some v ↔ m'[k]? = some v)) :
    m.toList.filter p = m'.toList.filter p := by
  have hfilter : m.filter (fun k v => p (k, v)) = m'.filter fun k v => p (k, v) := by
    apply Std.ExtTreeMap.ext_getElem?
    intro k
    rw [Std.ExtTreeMap.getElem?_filter', Std.ExtTreeMap.getElem?_filter']
    ext v
    rw [Option.filter_eq_some_iff, Option.filter_eq_some_iff]
    exact and_congr_left fun hp => h k v hp
  have hlists := congrArg Std.ExtTreeMap.toList hfilter
  rwa [Std.ExtTreeMap.toList_filter, Std.ExtTreeMap.toList_filter] at hlists

/-- They have the same still to come to. -/
theorem remaining_congr [Std.LawfulEqOrd κ] {m m' : OrderedMap κ ν} {p : κ × ν → Bool}
    (h : ∀ k v, p (k, v) = true → (m[k]? = some v ↔ m'[k]? = some v)) (cursor : Option κ) :
    m.remaining p cursor = m'.remaining p cursor :=
  filter_toList_congr fun k v hp => h k v (Bool.and_eq_true_iff.mp hp).1

/-- A walk that has come to an entry has the later ones still to come to. -/
theorem remaining_of_nextEntry {m : OrderedMap κ ν} {p : κ × ν → Bool} {cursor : Option κ}
    {e : κ × ν} (h : m.nextEntry p cursor = some e) :
    m.remaining p cursor = e :: m.remaining p (some e.1) := by
  obtain ⟨hfits, front, back, hsplit, hfront⟩ := List.find?_eq_some_iff_append.mp h
  have hsorted := Std.ExtTreeMap.ordered_keys_toList (t := m)
  unfold remaining
  rw [hsplit] at hsorted ⊢
  obtain ⟨-, htail, hcross⟩ := List.pairwise_append.mp hsorted
  have hahead : ahead cursor e.1 = true := (Bool.and_eq_true_iff.mp hfits).2
  have hfirst : front.filter (fun d => p d && ahead cursor d.1) = [] :=
    List.filter_eq_nil_iff.mpr fun d hd => by
      rw [Bool.not_eq_true]
      simpa only [Bool.not_eq_true'] using hfront d hd
  have hnone : front.filter (fun d => p d && ahead (some e.1) d.1) = [] := by
    refine List.filter_eq_nil_iff.mpr fun d hd => ?_
    have hlt := hcross d hd e List.mem_cons_self
    have hnot : ahead (some e.1) d.1 = false := by
      rw [← Bool.not_eq_true, ahead_some]
      exact fun hback => Std.OrientedCmp.not_lt_of_lt hlt hback
    simp [hnot]
  have hself : ahead (some e.1) e.1 = false := by
    rw [← Bool.not_eq_true, ahead_some]
    simp [Std.ReflCmp.compare_self]
  rw [List.filter_append, List.filter_append, hfirst, hnone, List.nil_append, List.nil_append,
    List.filter_cons, List.filter_cons, if_pos hfits, if_neg (by simp [hself])]
  congr 1
  refine List.filter_congr fun d hd => ?_
  have hlt := (List.pairwise_cons.mp htail).1 d hd
  have hlater : ahead (some e.1) d.1 = true := ahead_some.mpr hlt
  have hstill : ahead cursor d.1 = true := by
    cases cursor with
    | none => rfl
    | some c => exact ahead_some.mpr (Std.TransCmp.lt_trans (ahead_some.mp hahead) hlt)
  rw [hlater, hstill]

end OrderedMap

end SthCore.Lib
