import Mathlib.Algebra.BigOperators.Intervals
import Mathlib.Algebra.Order.BigOperators.Group.Finset
import Mathlib.Algebra.Group.Action.Defs

/-!
Schedules: entries that start at given places and stay in force until the next
one starts, and sums over the places of a schedule.
-/

namespace SthCore.Lib

variable {α : Type*} {start : α → ℕ}

/-- The last entry that has started at `h`. -/
def inForce (start : α → ℕ) (entries : List α) (h : ℕ) : Option α :=
  entries.reverse.find? fun e => decide (start e ≤ h)

@[simp]
theorem inForce_nil (h : ℕ) : inForce start [] h = none := rfl

theorem inForce_cons (a : α) (rest : List α) (h : ℕ) :
    inForce start (a :: rest) h =
      (inForce start rest h).or (if start a ≤ h then some a else none) := by
  unfold inForce
  rw [List.reverse_cons, List.find?_append]
  congr 1
  by_cases ha : start a ≤ h <;> simp [ha]

theorem inForce_eq_none {entries : List α} {h : ℕ} (late : ∀ e ∈ entries, h < start e) :
    inForce start entries h = none := by
  refine List.find?_eq_none.mpr fun e he => ?_
  rw [decide_eq_true_eq, not_le]
  exact late e (List.mem_reverse.mp he)

theorem inForce_isSome {entries : List α} {h : ℕ} {a : α} (ha : a ∈ entries)
    (started : start a ≤ h) : (inForce start entries h).isSome := by
  rw [inForce, List.find?_isSome]
  exact ⟨a, List.mem_reverse.mpr ha, decide_eq_true started⟩

/-- The first place behind an entry, among the places up to `h`. -/
def pieceEnd (start : α → ℕ) (h : ℕ) : List α → ℕ
  | [] => h + 1
  | b :: _ => min (start b) (h + 1)

/-- The values of the entries, each times the number of places up to `h` where it is in force. -/
def pieces (start value : α → ℕ) (h : ℕ) : List α → ℕ
  | [] => 0
  | a :: rest => value a * (pieceEnd start h rest - start a) + pieces start value h rest

/-- A sum over the places of an ordered schedule, entry by entry. -/
theorem sum_inForce {value : α → ℕ} {a : α} {rest : List α} (h : ℕ)
    (hsorted : (a :: rest).Pairwise fun a b => start a ≤ start b) :
    ∑ i ∈ Finset.Ico (start a) (h + 1), ((inForce start (a :: rest) i).map value).getD 0 =
      pieces start value h (a :: rest) := by
  induction rest generalizing a with
  | nil =>
      have hvalue : ∀ i ∈ Finset.Ico (start a) (h + 1),
          ((inForce start [a] i).map value).getD 0 = value a := by
        intro i hi
        rw [inForce_cons, if_pos (Finset.mem_Ico.mp hi).1]
        rfl
      rw [Finset.sum_congr rfl hvalue, Finset.sum_const, Nat.card_Ico, smul_eq_mul, mul_comm]
      rfl
  | cons b rest ih =>
      have hab : start a ≤ start b := List.rel_of_pairwise_cons hsorted List.mem_cons_self
      have hrest := List.Pairwise.of_cons hsorted
      have hfirst : ∀ i, start a ≤ i → i < start b →
          ((inForce start (a :: b :: rest) i).map value).getD 0 = value a := by
        intro i hai hib
        have hnone : inForce start (b :: rest) i = none := by
          refine inForce_eq_none fun e he => hib.trans_le ?_
          rcases List.mem_cons.mp he with rfl | he
          · exact le_rfl
          · exact List.rel_of_pairwise_cons hrest he
        rw [inForce_cons, hnone, if_pos hai]
        rfl
      have hconst : ∀ k ≤ start b,
          ∑ i ∈ Finset.Ico (start a) k, ((inForce start (a :: b :: rest) i).map value).getD 0 =
            value a * (k - start a) := by
        intro k hk
        rw [Finset.sum_congr rfl fun i hi => hfirst i (Finset.mem_Ico.mp hi).1
          ((Finset.mem_Ico.mp hi).2.trans_le hk), Finset.sum_const, Nat.card_Ico, smul_eq_mul,
          mul_comm]
      unfold pieces
      rw [← ih hrest]
      change _ = value a * (min (start b) (h + 1) - start a) + _
      by_cases hb : start b ≤ h + 1
      · have hlater : ∀ i ∈ Finset.Ico (start b) (h + 1),
            ((inForce start (a :: b :: rest) i).map value).getD 0 =
              ((inForce start (b :: rest) i).map value).getD 0 := by
          intro i hi
          have hsome : (inForce start (b :: rest) i).isSome :=
            inForce_isSome List.mem_cons_self (Finset.mem_Ico.mp hi).1
          rw [inForce_cons, Option.or_of_isSome hsome]
        rw [← Finset.sum_Ico_consecutive _ hab hb, hconst _ le_rfl,
          Finset.sum_congr rfl hlater, min_eq_left hb]
      · -- the second entry starts behind the last place
        have hbehind : h + 1 ≤ start b := by omega
        rw [hconst _ hbehind, min_eq_right hbehind, Finset.Ico_eq_empty (by omega),
          Finset.sum_empty, add_zero]

end SthCore.Lib
