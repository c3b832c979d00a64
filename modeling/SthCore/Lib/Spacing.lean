import Mathlib.Data.List.NodupEquivFin

/-!
Spacing of times: how far a time lies behind the one a given number of places
before it, and how many times fit into an interval.
-/

namespace SthCore.Lib

/-- Times that are `n` places apart are at least `len` apart. -/
def Spaced (n len : ℕ) (times : List ℕ) : Prop :=
  ∀ i a b : ℕ, times[i]? = some a → times[i + n]? = some b → a + len ≤ b

namespace Spaced

variable {n m len gap : ℕ} {times : List ℕ}

@[simp]
theorem nil (n len : ℕ) : Spaced n len [] := by
  intro i a b ha
  cases ha

theorem zero (times : List ℕ) : Spaced 0 0 times := by
  intro i a b ha hb
  rw [Nat.add_zero, ha] at hb
  exact (Option.some.inj hb).le

theorem mono (h : Spaced n gap times) (hle : len ≤ gap) : Spaced n len times := fun i a b ha hb =>
  (Nat.add_le_add_left hle a).trans (h i a b ha hb)

theorem add (h : Spaced n gap times) (h' : Spaced m len times) :
    Spaced (n + m) (gap + len) times := by
  intro i a c ha hc
  rw [← Nat.add_assoc] at hc
  have hmid : i + n < times.length := by
    have hlast := (List.getElem?_eq_some_iff.mp hc).1
    omega
  have hb := List.getElem?_eq_getElem hmid
  have hfirst := h i a _ ha hb
  have hsecond := h' (i + n) _ c hb hc
  omega

theorem mul (h : Spaced n len times) (k : ℕ) : Spaced (k * n) (k * len) times := by
  induction k with
  | zero =>
      rw [Nat.zero_mul, Nat.zero_mul]
      exact zero times
  | succ k ih =>
      rw [Nat.succ_mul, Nat.succ_mul]
      exact ih.add h

theorem max (h : Spaced n len times) (h' : Spaced n gap times) :
    Spaced n (max len gap) times := by
  intro i a b ha hb
  have hfirst := h i a b ha hb
  have hsecond := h' i a b ha hb
  omega

/-- A time behind the others. -/
theorem concat {x : ℕ} (h : Spaced n len times) (hn : 0 < n)
    (hlast : ∀ i a, i + n = times.length → times[i]? = some a → a + len ≤ x) :
    Spaced n len (times ++ [x]) := by
  intro i a b ha hb
  have hi : i < times.length := by
    have hend := (List.getElem?_eq_some_iff.mp hb).1
    rw [List.length_append, List.length_singleton] at hend
    omega
  rw [List.getElem?_append_left hi] at ha
  rcases Nat.lt_trichotomy (i + n) times.length with hin | hin | hin
  · rw [List.getElem?_append_left hin] at hb
    exact h i a b ha hb
  · rw [List.getElem?_append_right hin.ge, hin, Nat.sub_self] at hb
    exact Option.some.inj hb ▸ hlast i a hin ha
  · have hend := (List.getElem?_eq_some_iff.mp hb).1
    rw [List.length_append, List.length_singleton] at hend
    omega

/-- Neighbours that do not go back make an ordered list. -/
theorem pairwise (h : Spaced 1 len times) : times.Pairwise (· ≤ ·) := by
  refine List.isChain_iff_pairwise.mp (List.isChain_iff_getElem.mpr fun i hi => ?_)
  have hstep := h i _ _ (List.getElem?_eq_getElem (by omega)) (List.getElem?_eq_getElem hi)
  omega

/-- A half-open interval holds no more times than lie closer together than it is long. -/
theorem count_le (h : Spaced n len times) (hsorted : times.Pairwise (· ≤ ·)) (t : ℕ) :
    (times.filter fun x => decide (t ≤ x ∧ x < t + len)).length ≤ n := by
  by_contra hmore
  rw [not_le] at hmore
  set found := times.filter fun x => decide (t ≤ x ∧ x < t + len) with hfound
  have hinside : ∀ x ∈ found, t ≤ x ∧ x < t + len := by
    intro x hx
    exact of_decide_eq_true (List.mem_filter.mp hx).2
  obtain ⟨place, hplace⟩ :=
    List.sublist_iff_exists_orderEmbedding_getElem?_eq.mp (List.filter_sublist (l := times)
      (p := fun x => decide (t ≤ x ∧ x < t + len)))
  have hfirst := hplace 0
  have hlast := hplace n
  rw [← hfound, List.getElem?_eq_getElem (by omega)] at hfirst
  rw [← hfound, List.getElem?_eq_getElem hmore] at hlast
  have hsteps : n + place 0 ≤ place (n + 0) := place.strictMono.add_le_nat n 0
  rw [Nat.add_zero, Nat.add_comm] at hsteps
  have hend := (List.getElem?_eq_some_iff.mp hlast.symm).1
  have hinner : place 0 + n < times.length := lt_of_le_of_lt hsteps hend
  have hgap := h _ _ _ hfirst.symm (List.getElem?_eq_getElem hinner)
  have horder : times[place 0 + n] ≤ found[n] := by
    obtain ⟨hlt, hvalue⟩ := List.getElem?_eq_some_iff.mp hlast.symm
    rw [← hvalue]
    rcases hsteps.lt_or_eq with hbefore | hsame
    · exact List.pairwise_iff_getElem.mp hsorted _ _ _ hlt hbefore
    · simp only [hsame, le_refl]
  have hbelow := (hinside _ (List.getElem_mem (show 0 < found.length by omega))).1
  have habove := (hinside _ (List.getElem_mem hmore)).2
  omega

end Spaced

/-- The least distance of times that are `k` places apart, when neighbours are `gap` apart and
times `n` places apart are `len` apart. -/
def closest (n len gap k : ℕ) : ℕ := k / n * max len (n * gap) + k % n * gap

theorem mul_le_closest (n len gap k : ℕ) : k * gap ≤ closest n len gap k := by
  have hblock : k / n * (n * gap) ≤ k / n * max len (n * gap) :=
    Nat.mul_le_mul_left _ (Nat.le_max_right _ _)
  calc k * gap = (k / n * n + k % n) * gap := by rw [Nat.mul_comm (k / n), Nat.div_add_mod]
    _ = k / n * (n * gap) + k % n * gap := by rw [Nat.add_mul, Nat.mul_assoc]
    _ ≤ _ := Nat.add_le_add_right hblock _

theorem closest_add (n len gap k : ℕ) (hn : 0 < n) :
    closest n len gap (k + n) = closest n len gap k + max len (n * gap) := by
  unfold closest
  rw [Nat.add_div_right k hn, Nat.add_mod_right, Nat.succ_mul]
  omega

theorem closest_succ (n len gap k : ℕ) (hn : 0 < n) :
    closest n len gap k + gap ≤ closest n len gap (k + 1) := by
  have hblock : n * gap ≤ max len (n * gap) := Nat.le_max_right _ _
  have hrest := Nat.mod_lt k hn
  by_cases hend : k % n + 1 = n
  · -- the next place closes a block of `n`
    have hk : k + 1 = (k / n + 1) * n := by
      have hdiv := Nat.div_add_mod k n
      rw [Nat.succ_mul, Nat.mul_comm]
      omega
    unfold closest
    rw [hk, Nat.mul_div_cancel _ hn, Nat.mul_mod_left, Nat.succ_mul]
    have hgaps : k % n * gap + gap = n * gap := by
      rw [← Nat.succ_mul, Nat.succ_eq_add_one, hend]
    omega
  · have hlt : k % n + 1 < n := by omega
    have hk : k + 1 = n * (k / n) + (k % n + 1) := by
      have hdiv := Nat.div_add_mod k n
      omega
    have hdiv : (k + 1) / n = k / n := by
      rw [hk, Nat.mul_add_div hn, Nat.div_eq_of_lt hlt, Nat.add_zero]
    have hmod : (k + 1) % n = k % n + 1 := by
      rw [hk, Nat.mul_add_mod, Nat.mod_eq_of_lt hlt]
    unfold closest
    rw [hdiv, hmod, Nat.succ_mul]
    omega

theorem Spaced.closest {n len gap : ℕ} {times : List ℕ} (h : Spaced 1 gap times)
    (h' : Spaced n len times) (k : ℕ) : Spaced k (closest n len gap k) times := by
  have hblock : Spaced n (Max.max len (n * gap)) times := by
    refine h'.max ?_
    have hmul := h.mul n
    rwa [Nat.mul_one] at hmul
  have hrest := h.mul (k % n)
  rw [Nat.mul_one] at hrest
  have hall := (hblock.mul (k / n)).add hrest
  rwa [Nat.mul_comm (k / n) n, Nat.div_add_mod] at hall

end SthCore.Lib
