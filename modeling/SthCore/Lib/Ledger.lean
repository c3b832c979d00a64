import SthCore.Lib.OrderedMap

/-!
Double-entry postings.  A posting list says which account moves by how much; a
list that sums to zero moves value without creating any.
-/

namespace SthCore.Lib

/-- Accounts and the amounts they move by. -/
abbrev Postings (κ : Type*) := List (κ × Int)

namespace Postings

variable {κ : Type*} [DecidableEq κ]

/-- The net movement of one account. -/
def net (p : Postings κ) (x : κ) : Int :=
  (p.map fun e => if e.1 = x then e.2 else 0).sum

/-- The sum over all accounts. -/
def total (p : Postings κ) : Int := (p.map fun e => e.2).sum

@[simp] theorem net_nil (x : κ) : net ([] : Postings κ) x = 0 := rfl

@[simp] theorem net_cons (e : κ × Int) (p : Postings κ) (x : κ) :
    net (e :: p) x = (if e.1 = x then e.2 else 0) + net p x := by
  simp [net]

@[simp] theorem net_append (p q : Postings κ) (x : κ) : net (p ++ q) x = net p x + net q x := by
  simp [net]

omit [DecidableEq κ] in
@[simp] theorem total_nil : total ([] : Postings κ) = 0 := rfl

omit [DecidableEq κ] in
@[simp] theorem total_cons (e : κ × Int) (p : Postings κ) : total (e :: p) = e.2 + total p := by
  simp [total]

omit [DecidableEq κ] in
@[simp] theorem total_append (p q : Postings κ) : total (p ++ q) = total p + total q := by
  simp [total]

/-- An account that no posting names does not move. -/
theorem net_eq_zero_of_notMem {p : Postings κ} {x : κ} (h : x ∉ p.map fun e => e.1) :
    net p x = 0 := by
  induction p with
  | nil => rfl
  | cons e p ih =>
      simp only [List.map_cons, List.mem_cons, not_or] at h
      rw [net_cons, ih h.2, if_neg (fun he => h.1 he.symm), add_zero]

/-- Summed over enough accounts, the net movements give the total. -/
theorem sum_net (p : Postings κ) (S : Finset κ) (hS : ∀ e ∈ p, e.1 ∈ S) :
    ∑ x ∈ S, net p x = total p := by
  induction p with
  | nil => simp
  | cons e p ih =>
      have hrest := ih fun e' he' => hS e' (List.mem_cons_of_mem e he')
      have hhead : e.1 ∈ S := hS e List.mem_cons_self
      simp only [net_cons, Finset.sum_add_distrib, hrest, total_cons]
      simp [hhead]

/-- `amount` from one account to another. -/
def move (payer payee : κ) (amount : Int) : Postings κ := [(payer, -amount), (payee, amount)]

omit [DecidableEq κ] in
@[simp] theorem total_move (payer payee : κ) (amount : Int) : total (move payer payee amount) = 0 := by
  simp [move]

theorem net_move (payer payee : κ) (amount : Int) (x : κ) :
    net (move payer payee amount) x =
      (if payer = x then -amount else 0) + (if payee = x then amount else 0) := by
  simp [move]

end Postings

/-- `after` is `before` with the postings applied. -/
def Posts {κ : Type*} [DecidableEq κ] (before after : κ → Int) (p : Postings κ) : Prop :=
  ∀ x, after x = before x + p.net x

namespace Posts

variable {κ : Type*} [DecidableEq κ] {f g h : κ → Int} {p q : Postings κ}

theorem refl (f : κ → Int) : Posts f f [] := by
  intro x
  simp

theorem trans (hfg : Posts f g p) (hgh : Posts g h q) : Posts f h (p ++ q) := by
  intro x
  rw [hgh x, hfg x, Postings.net_append]
  ring

theorem of_eq (hfg : ∀ x, g x = f x) : Posts f g [] := by
  intro x
  simp [hfg x]

/-- Two posting lists with the same net movements are interchangeable. -/
theorem congr (hfg : Posts f g p) (hpq : ∀ x, p.net x = q.net x) : Posts f g q := by
  intro x
  rw [hfg x, hpq x]

end Posts

namespace OrderedMap

variable {κ ν : Type*} [Ord κ] [Std.TransOrd κ] [Std.LawfulEqOrd κ] [DecidableEq κ]

/-- The value of one entry, zero when it is absent. -/
def value (f : κ → ν → Int) (m : OrderedMap κ ν) (k : κ) : Int := m[k]?.elim 0 (f k)

/-- The keys of a map. -/
def support (m : OrderedMap κ ν) : Finset κ := m.keys.toFinset

omit [DecidableEq κ] in
theorem total_eq_sum_keys (f : κ → ν → Int) (m : OrderedMap κ ν) :
    total f m = (m.keys.map (value f m)).sum := by
  rw [total, ← Std.ExtTreeMap.map_fst_toList_eq_keys, List.map_map]
  congr 1
  apply List.map_congr_left
  rintro ⟨k, v⟩ hkv
  have hget : m[k]? = some v := Std.ExtTreeMap.mem_toList_iff_getElem?_eq_some.mp hkv
  simp [value, hget]

omit [DecidableEq κ] in
theorem keys_nodup (m : OrderedMap κ ν) : m.keys.Nodup := by
  refine (Std.ExtTreeMap.distinct_keys (t := m)).imp ?_
  rintro a b h rfl
  exact h Std.ReflOrd.compare_self

theorem value_eq_zero_of_notMem (f : κ → ν → Int) (m : OrderedMap κ ν) {k : κ}
    (h : k ∉ m.support) : value f m k = 0 := by
  have hnone : m[k]? = none := by
    apply Std.ExtTreeMap.getElem?_eq_none
    intro hmem
    exact h (by simpa [support] using hmem)
  simp [value, hnone]

/-- The sum of a map over any finite set that covers its keys. -/
theorem total_eq_sum (f : κ → ν → Int) (m : OrderedMap κ ν) (S : Finset κ)
    (hS : m.support ⊆ S) : total f m = ∑ k ∈ S, value f m k := by
  rw [total_eq_sum_keys, ← List.sum_toFinset _ (keys_nodup m)]
  exact Finset.sum_subset hS fun k _ hk => value_eq_zero_of_notMem f m hk

/-- Postings move the sum of a map by their total. -/
theorem total_posts {μ : Type*} (f : κ → ν → Int) (g : κ → μ → Int) (m : OrderedMap κ ν)
    (m' : OrderedMap κ μ) (p : Postings κ) (h : Posts (value f m) (value g m') p) :
    total g m' = total f m + p.total := by
  let S := m.support ∪ m'.support ∪ (p.map fun e => e.1).toFinset
  have hm : m.support ⊆ S := fun k hk => by simp [S, hk]
  have hm' : m'.support ⊆ S := fun k hk => by simp [S, hk]
  have hp : ∀ e ∈ p, e.1 ∈ S := fun e he => by
    simp only [S, Finset.mem_union, List.mem_toFinset, List.mem_map]
    exact Or.inr ⟨e, he, rfl⟩
  rw [total_eq_sum f m S hm, total_eq_sum g m' S hm', ← Postings.sum_net p S hp,
    ← Finset.sum_add_distrib]
  exact Finset.sum_congr rfl fun k _ => h k

end OrderedMap

end SthCore.Lib
