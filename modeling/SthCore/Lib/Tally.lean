import Mathlib

/-!
A budget that starts over when its window has passed: what is spent of it in any
interval of the length of a window is at most twice the budget, since no more
than two windows meet the interval.
-/

namespace SthCore.Lib

/-- What is spent, of entries with a time and an amount, at the times of a set. -/
def tally (p : ℕ → Bool) (entries : List (ℕ × ℕ)) : ℕ :=
  (entries.map fun e => if p e.1 then e.2 else 0).sum

/-- What is spent in a half-open interval. -/
def spentIn (entries : List (ℕ × ℕ)) (start stop : ℕ) : ℕ :=
  tally (fun t => decide (start ≤ t ∧ t < stop)) entries

/-- What is spent from a time on. -/
def spentFrom (entries : List (ℕ × ℕ)) (start : ℕ) : ℕ :=
  tally (fun t => decide (start ≤ t)) entries

variable {entries : List (ℕ × ℕ)} {p q q' : ℕ → Bool}

theorem tally_concat (entries : List (ℕ × ℕ)) (t n : ℕ) :
    tally p (entries ++ [(t, n)]) = tally p entries + if p t then n else 0 := by
  unfold tally
  rw [List.map_append, List.sum_append, List.map_singleton, List.sum_singleton]

/-- What two sets cover together, they account for together. -/
theorem tally_le_add (h : ∀ e ∈ entries, p e.1 = true → q e.1 = true ∨ q' e.1 = true) :
    tally p entries ≤ tally q entries + tally q' entries := by
  unfold tally
  rw [← List.sum_map_add]
  apply List.sum_le_sum
  intro e he
  by_cases hp : p e.1 = true
  · rw [if_pos hp]
    rcases h e he hp with hq | hq
    · rw [if_pos hq]
      exact Nat.le_add_right _ _
    · rw [if_pos hq]
      exact Nat.le_add_left _ _
  · rw [if_neg hp]
    exact Nat.zero_le _

theorem tally_le (h : ∀ e ∈ entries, p e.1 = true → q e.1 = true) :
    tally p entries ≤ tally q entries := by
  have hsum : tally p entries ≤ tally q entries + tally (fun _ => false) entries :=
    tally_le_add fun e he hp => Or.inl (h e he hp)
  refine hsum.trans_eq ?_
  have hnone : tally (fun _ => false) entries = 0 := by
    unfold tally
    simp
  rw [hnone, Nat.add_zero]

theorem tally_eq_zero (h : ∀ e ∈ entries, p e.1 = false) : tally p entries = 0 := by
  unfold tally
  rw [List.sum_eq_zero_iff]
  intro n hn
  obtain ⟨e, he, rfl⟩ := List.mem_map.mp hn
  rw [h e he]
  rfl

/-- A window that started at `start`: `used` is what is spent in it, and what was spent shortly
before it was spent in one window too. -/
structure Metered (len limit : ℕ) (entries : List (ℕ × ℕ)) (start used : ℕ) : Prop where
  inside : ∀ e ∈ entries, e.1 < start + len
  before : ∀ t, start < t + len → spentIn entries t start ≤ limit
  own : spentFrom entries start = used
  le : used ≤ limit

namespace Metered

variable {len limit start used now n : ℕ}

/-- The first window, or one long after the last. -/
theorem fresh (h : ∀ e ∈ entries, e.1 + len ≤ now) (hlen : 0 < len) :
    Metered len limit entries now 0 where
  inside e he := by
    have hold := h e he
    omega
  before t ht := by
    rw [spentIn, tally_eq_zero]
    · exact Nat.zero_le _
    · intro e he
      have hold := h e he
      exact decide_eq_false (by omega)
  own := by
    apply tally_eq_zero
    intro e he
    have hold := h e he
    exact decide_eq_false (by omega)
  le := Nat.zero_le _

/-- The window after one that has passed. -/
theorem roll (h : Metered len limit entries start used) (hpassed : start + len ≤ now) :
    Metered len limit entries now 0 where
  inside e he := by
    have hold := h.inside e he
    omega
  before t ht := by
    refine le_trans ?_ (h.own.le.trans h.le)
    apply tally_le
    intro e he hinside
    have hplace := of_decide_eq_true hinside
    exact decide_eq_true (by omega)
  own := by
    apply tally_eq_zero
    intro e he
    have hold := h.inside e he
    exact decide_eq_false (by omega)
  le := Nat.zero_le _

theorem spend (h : Metered len limit entries start used) (hstart : start ≤ now)
    (hnow : now < start + len) (hn : used + n ≤ limit) :
    Metered len limit (entries ++ [(now, n)]) start (used + n) where
  inside e he := by
    rcases List.mem_append.mp he with he | he
    · exact h.inside e he
    · rw [List.mem_singleton.mp he]
      exact hnow
  before t ht := by
    rw [spentIn, tally_concat, if_neg (by simp; omega), Nat.add_zero]
    exact h.before t ht
  own := by
    rw [spentFrom, tally_concat, if_pos (decide_eq_true hstart)]
    exact congrArg (· + n) h.own
  le := hn

/-- In no interval as long as a window more than twice the budget is spent. -/
theorem spentIn_le (h : Metered len limit entries start used) {t : ℕ}
    (hstart : start < t + len) : spentIn entries t (t + len) ≤ 2 * limit := by
  have hcover : spentIn entries t (t + len) ≤ spentIn entries t start + spentFrom entries start := by
    apply tally_le_add
    intro e _ hinside
    have hplace := of_decide_eq_true hinside
    rcases Nat.lt_or_ge e.1 start with hbefore | hafter
    · exact .inl (decide_eq_true (by omega))
    · exact .inr (decide_eq_true hafter)
  have hbefore := h.before t hstart
  have hused := h.own.le.trans h.le
  omega

end Metered

/-- One more entry, in a window that allows it, keeps every interval within twice the budget. -/
theorem spentIn_le_concat {len limit start used now n : ℕ}
    (h : ∀ t, spentIn entries t (t + len) ≤ 2 * limit)
    (hnew : Metered len limit (entries ++ [(now, n)]) start (used + n))
    (hstart : start ≤ now) : ∀ t, spentIn (entries ++ [(now, n)]) t (t + len) ≤ 2 * limit := by
  intro t
  by_cases hinside : t ≤ now ∧ now < t + len
  · exact hnew.spentIn_le (by omega)
  · rw [spentIn, tally_concat, if_neg (by simpa using hinside), Nat.add_zero]
    exact h t

end SthCore.Lib
