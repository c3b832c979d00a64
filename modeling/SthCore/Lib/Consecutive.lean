import Mathlib.Data.List.Range
import Mathlib.Data.List.Sort
import Mathlib.Data.Finset.Max
import Mathlib.Order.Interval.Finset.Nat

/-!
Lists that hold, in any order, the numbers right after a base without a gap.
-/

namespace SthCore.Lib

/-- The numbers `base + 1`, `base + 2`, … in some order, each once. -/
def Consecutive (base : Nat) (l : List Nat) : Prop := l.Perm (List.range' (base + 1) l.length)

namespace Consecutive

variable {base : Nat} {l : List Nat}

theorem nil (base : Nat) : Consecutive base [] := List.Perm.nil

theorem nodup (h : Consecutive base l) : l.Nodup := h.nodup_iff.mpr List.nodup_range'

theorem mem_iff (h : Consecutive base l) {n : Nat} :
    n ∈ l ↔ base < n ∧ n ≤ base + l.length := by
  rw [List.Perm.mem_iff h, List.mem_range'_1]
  omega

/-- The next number may join. -/
theorem next (h : Consecutive base l) : Consecutive base ((base + l.length + 1) :: l) := by
  unfold Consecutive
  rw [List.length_cons, List.range'_concat, one_mul]
  refine (List.Perm.cons _ h).trans ?_
  have hlast : base + 1 + l.length = base + l.length + 1 := by omega
  rw [hlast]
  exact (List.perm_append_singleton _ _).symm

/-- Numbers above a base that leave nothing out below any of them. -/
theorem of_downward (hnodup : l.Nodup) (habove : ∀ n ∈ l, base < n)
    (hdown : ∀ n ∈ l, ∀ m, base < m → m ≤ n → m ∈ l) : Consecutive base l := by
  rcases l.eq_nil_or_concat with rfl | ⟨init, last, hl⟩
  · exact nil base
  · have hne : l.toFinset.Nonempty := by
      refine ⟨last, ?_⟩
      simp [hl]
    have hmax := List.mem_toFinset.mp (l.toFinset.max'_mem hne)
    have hset : l.toFinset = Finset.Ioc base (l.toFinset.max' hne) := by
      ext n
      rw [List.mem_toFinset, Finset.mem_Ioc]
      constructor
      · exact fun hn => ⟨habove n hn, l.toFinset.le_max' n (List.mem_toFinset.mpr hn)⟩
      · exact fun hn => hdown _ hmax n hn.1 hn.2
    have hcard : l.length = l.toFinset.max' hne - base := by
      rw [← List.toFinset_card_of_nodup hnodup, ← Nat.card_Ioc, ← hset]
    refine (List.perm_ext_iff_of_nodup hnodup List.nodup_range').mpr fun n => ?_
    rw [List.mem_range'_1, ← List.mem_toFinset, hset, Finset.mem_Ioc]
    have hpos := habove _ hmax
    omega

end Consecutive

end SthCore.Lib
