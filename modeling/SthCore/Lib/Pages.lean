import Mathlib

/-!
Pages of a list, and scans that collect one page while they count.  A scan may
stop once its page is full and its budget is spent.
-/

namespace SthCore.Lib

/-- The `limit` elements after the first `skip`. -/
def pageOf {α : Type*} (skip limit : Nat) (l : List α) : List α := (l.drop skip).take limit

section Page

variable {α : Type*} {skip limit : Nat} {l l' : List α}

theorem length_pageOf : (pageOf skip limit l).length = min limit (l.length - skip) := by
  rw [pageOf, List.length_take, List.length_drop]

theorem pageOf_eq_nil_of_le (h : l.length ≤ skip) : pageOf skip limit l = [] := by
  rw [pageOf, List.drop_eq_nil_of_le h, List.take_nil]

theorem pageOf_concat (a : α) : pageOf skip limit (l ++ [a]) =
    if skip < l.length + 1 ∧ (pageOf skip limit l).length < limit then pageOf skip limit l ++ [a]
    else pageOf skip limit l := by
  rw [length_pageOf]
  unfold pageOf
  by_cases hskip : skip ≤ l.length
  · rw [List.drop_append_of_le_length hskip, List.take_append, List.length_drop]
    split_ifs with h
    · rw [List.take_of_length_le (l := [a]) (by simp; omega)]
    · have hfull : limit - (l.length - skip) = 0 := by omega
      rw [hfull, List.take_zero, List.append_nil]
  · have hlong : (l ++ [a]).drop skip = [] := List.drop_eq_nil_of_le (by simp; omega)
    rw [if_neg (by omega), hlong,
      List.drop_eq_nil_of_le (Nat.le_of_not_le hskip)]

end Page

/-! ## Scans -/

/-- Where a scan stands. -/
structure PageScan (α : Type*) where
  rows : List α := []
  total : Nat := 0
  scanned : Nat := 0
  estimate : Bool := false

namespace PageScan

variable {α : Type*}

/-- One entry, which may hold a row. -/
def step (skip limit : Nat) (scan : PageScan α) : Option α → PageScan α
  | none => { scan with scanned := scan.scanned + 1 }
  | some a =>
      { scan with
        scanned := scan.scanned + 1
        total := scan.total + 1
        rows := if skip < scan.total + 1 ∧ scan.rows.length < limit then scan.rows ++ [a]
          else scan.rows }

/-- The page is full and the budget is spent. -/
def Spent (budget limit : Nat) (scan : PageScan α) : Prop :=
  limit ≤ scan.rows.length ∧ budget ≤ scan.scanned

instance (budget limit : Nat) (scan : PageScan α) : Decidable (scan.Spent budget limit) :=
  inferInstanceAs (Decidable (_ ∧ _))

def run (budget skip limit : Nat) : List (Option α) → PageScan α → PageScan α
  | [], scan => scan
  | hit :: rest, scan =>
      if scan.Spent budget limit then { scan with estimate := true }
      else run budget skip limit rest (scan.step skip limit hit)

/-- The scan has read `l`. -/
structure Read (skip limit : Nat) (l : List (Option α)) (scan : PageScan α) : Prop where
  rows : scan.rows = pageOf skip limit l.reduceOption
  total : scan.total = l.reduceOption.length
  scanned : scan.scanned = l.length
  exact : scan.estimate = false

variable {budget skip limit : Nat} {l rest : List (Option α)} {scan : PageScan α}

theorem Read.nil : Read skip limit [] ({} : PageScan α) := by
  refine ⟨?_, rfl, rfl, rfl⟩
  exact (pageOf_eq_nil_of_le (Nat.zero_le _)).symm

theorem Read.step (h : Read skip limit l scan) (hit : Option α) :
    Read skip limit (l ++ [hit]) (scan.step skip limit hit) := by
  cases hit with
  | none =>
      refine ⟨?_, ?_, ?_, h.exact⟩
      · rw [List.reduceOption_append]
        simpa [PageScan.step] using h.rows
      · rw [List.reduceOption_append]
        simpa [PageScan.step] using h.total
      · simp [PageScan.step, h.scanned]
  | some a =>
      have hall : (l ++ [some a]).reduceOption = l.reduceOption ++ [a] := by
        rw [List.reduceOption_append]
        rfl
      refine ⟨?_, ?_, ?_, h.exact⟩
      · rw [hall, pageOf_concat, ← h.rows, ← h.total]
        rfl
      · rw [hall, List.length_append]
        exact congrArg (· + 1) h.total
      · rw [List.length_append]
        exact congrArg (· + 1) h.scanned

end PageScan

end SthCore.Lib
