import Mathlib.Data.List.Sublists

/-!
Times within a window that ends now.  A queue of times in order is brought up to
date by dropping its front, and it does not matter how often that is done.
-/

namespace SthCore.Lib

/-- The times that lie at most `len` back. -/
def recent (len now : ℕ) (times : List ℕ) : List ℕ :=
  times.filter fun t => decide (now - t ≤ len)

/-- A queue of times without the front that lies further back. -/
def expire (len now : ℕ) (times : List ℕ) : List ℕ :=
  times.dropWhile fun t => decide (len < now - t)

variable {len now later : ℕ} {times : List ℕ}

theorem recent_append (times times' : List ℕ) :
    recent len now (times ++ times') = recent len now times ++ recent len now times' :=
  List.filter_append ..

theorem expire_sublist (len now : ℕ) (times : List ℕ) : (expire len now times).Sublist times :=
  List.dropWhile_sublist _

/-- In order, the times that are too old are all at the front. -/
theorem expire_eq_recent (h : times.Pairwise (· ≤ ·)) :
    expire len now times = recent len now times := by
  induction times with
  | nil => rfl
  | cons t rest ih =>
      obtain ⟨hfront, hrest⟩ := List.pairwise_cons.mp h
      unfold expire recent
      by_cases hold : len < now - t
      · rw [List.dropWhile_cons_of_pos (by simp [hold]),
          List.filter_cons_of_neg (by simp; omega)]
        exact ih hrest
      · rw [List.dropWhile_cons_of_neg (by simp; omega), eq_comm, List.filter_eq_self]
        intro a ha
        rcases List.mem_cons.mp ha with rfl | ha
        · exact decide_eq_true (by omega)
        · have hlater := hfront a ha
          exact decide_eq_true (by omega)

/-- What is too old stays too old. -/
theorem recent_recent (h : now ≤ later) :
    recent len later (recent len now times) = recent len later times := by
  unfold recent
  rw [List.filter_filter]
  apply List.filter_congr
  intro t _
  rw [← Bool.decide_and]
  exact decide_eq_decide.mpr ⟨fun hboth => hboth.1, fun hnew => ⟨hnew, by omega⟩⟩

end SthCore.Lib
