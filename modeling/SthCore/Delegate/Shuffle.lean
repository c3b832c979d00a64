import SthCore.Delegate.Round

/-!
The forging order of a round in closed form: which two positions each step of
the shuffle swaps, and that the passes come to an end.
-/

namespace SthCore

variable {α : Type} {P : Primitives}

/-- The seed of a pass: the hash of the decimal round number, hashed once more for every pass
before it. -/
def shuffleSeed (P : Primitives) (round pass : Nat) : Bytes :=
  P.sha256^[pass + 1] (utf8Bytes (Text.ofNat round))

/-- The position that position `i` is swapped with. -/
def shuffleTarget (P : Primitives) (round n i : Nat) : Nat :=
  ((shuffleSeed P round (i / 5)).getD (i % 5) 0).toNat % n

/-- The swaps at the given positions, one after another. -/
def swapsAt (P : Primitives) (round n : Nat) (positions : List Nat) (items : List α) : List α :=
  positions.foldl (fun items i => swapAt items (shuffleTarget P round n i) i) items

/-- Every fifth position is passed over. -/
def isSwapped (i : Nat) : Bool := i % 5 ≠ 4

/-- The loop of `shuffle` with a bound on its passes: nothing when it would go on. -/
def shufflePasses (P : Primitives) (n : Nat) : Nat → List α → Nat → Bytes → Option (List α)
  | 0, items, i, _ => if i < n then none else some items
  | passes + 1, items, i, seed =>
      if i < n then
        let acc := [0, 1, 2, 3].foldl (shuffleStep seed n) (items, i)
        shufflePasses P n passes acc.1 (acc.2 + 1) (P.sha256 seed)
      else some items

theorem shuffleFrom_of_passes {n fuel : Nat} {items found : List α} {i : Nat} {seed : Bytes}
    (h : shufflePasses P n fuel items i seed = some found) :
    shuffleFrom P n fuel items i seed = found := by
  induction fuel generalizing items i seed with
  | zero =>
      unfold shufflePasses at h
      split_ifs at h
      exact Option.some.inj h
  | succ fuel ih =>
      unfold shufflePasses at h
      unfold shuffleFrom
      split_ifs at h ⊢ with hi
      · exact ih h
      · exact Option.some.inj h

theorem swapAt_perm (items : List α) (i j : Nat) : (swapAt items i j).Perm items := by
  unfold swapAt
  cases hi : items[i]? with
  | none => exact List.Perm.refl _
  | some a =>
      cases hj : items[j]? with
      | none => exact List.Perm.refl _
      | some b =>
          obtain ⟨hfirst, rfl⟩ := List.getElem?_eq_some_iff.mp hi
          obtain ⟨hsecond, rfl⟩ := List.getElem?_eq_some_iff.mp hj
          exact List.set_set_perm hfirst hsecond

theorem swapsAt_perm (P : Primitives) (round n : Nat) (positions : List Nat) (items : List α) :
    (swapsAt P round n positions items).Perm items := by
  induction positions generalizing items with
  | nil => exact List.Perm.refl _
  | cons i rest ih => exact (ih _).trans (swapAt_perm items _ i)

theorem swapsAt_append (round n : Nat) (p q : List Nat) (items : List α) :
    swapsAt P round n (p ++ q) items = swapsAt P round n q (swapsAt P round n p items) :=
  List.foldl_append

section Pass

variable {round n k : Nat} {items : List α}

/-- One step inside a pass. -/
theorem shuffleStep_eq {x : Nat} (hx : x < 5) :
    shuffleStep (shuffleSeed P round k) n (items, 5 * k + x) x =
      if 5 * k + x < n then (swapsAt P round n [5 * k + x] items, 5 * k + x + 1)
      else (items, 5 * k + x) := by
  have hdiv : (5 * k + x) / 5 = k := by omega
  have hmod : (5 * k + x) % 5 = x := by omega
  unfold shuffleStep swapsAt shuffleTarget
  rw [List.foldl_cons, List.foldl_nil, hdiv, hmod]

/-- The steps of a pass go through the positions from its start, up to the end of the list. -/
theorem shufflePass_eq (hk : 5 * k ≤ n) {steps : Nat} (hsteps : steps ≤ 4) :
    (List.range steps).foldl (shuffleStep (shuffleSeed P round k) n) (items, 5 * k) =
      (swapsAt P round n (List.range' (5 * k) (min steps (n - 5 * k))) items,
        5 * k + min steps (n - 5 * k)) := by
  induction steps with
  | zero =>
      rw [Nat.zero_min]
      rfl
  | succ x ih =>
      rw [List.range_succ, List.foldl_append, ih (by omega), List.foldl_cons, List.foldl_nil]
      by_cases hx : 5 * k + x < n
      · have hmin : min x (n - 5 * k) = x := by omega
        have hnext : min (x + 1) (n - 5 * k) = x + 1 := by omega
        rw [hmin, hnext, shuffleStep_eq (by omega), if_pos hx, List.range'_1_concat, swapsAt_append]
        rfl
      · have hsame : min (x + 1) (n - 5 * k) = min x (n - 5 * k) := by omega
        have hend : 5 * k + min x (n - 5 * k) = n := by omega
        rw [hsame, hend]
        unfold shuffleStep
        rw [if_neg (Nat.lt_irrefl n)]

/-- The positions of a pass, without the one that is passed over, and those after it. -/
theorem filter_isSwapped (hk : 5 * k < n) :
    (List.range' (5 * k) (n - 5 * k)).filter isSwapped =
      List.range' (5 * k) (min 4 (n - 5 * k)) ++
        (List.range' (5 * (k + 1)) (n - 5 * (k + 1))).filter isSwapped := by
  have hkept : (List.range' (5 * k) (min 4 (n - 5 * k))).filter isSwapped =
      List.range' (5 * k) (min 4 (n - 5 * k)) := by
    refine List.filter_eq_self.mpr fun i hi => ?_
    obtain ⟨j, hj, rfl⟩ := List.mem_range'.mp hi
    unfold isSwapped
    rw [decide_eq_true_eq]
    omega
  by_cases hlast : n ≤ 5 * k + 4
  · have hall : min 4 (n - 5 * k) = n - 5 * k := by omega
    have hnone : n - 5 * (k + 1) = 0 := by omega
    rw [hall] at hkept
    rw [hall, hkept, hnone, List.range'_zero, List.filter_nil, List.append_nil]
  · have hcut : n - 5 * k = 4 + (1 + (n - 5 * (k + 1))) := by omega
    have hfour : min 4 (n - 5 * k) = 4 := by omega
    have hskip : isSwapped (5 * k + 4) = false := by
      unfold isSwapped
      rw [decide_eq_false_iff_not]
      omega
    rw [hfour] at hkept
    rw [hfour, hcut, ← List.range'_append_1, List.filter_append, hkept, ← List.range'_append_1,
      List.filter_append]
    change _ ++ ([5 * k + 4].filter isSwapped ++ _) = _
    rw [List.filter_cons_of_neg (by rw [hskip]; decide), List.filter_nil, List.nil_append]
    rfl

end Pass

/-- Enough passes go through all positions that are left. -/
theorem shufflePasses_eq {round n k passes : Nat} {items : List α} (h : n ≤ 5 * (k + passes)) :
    shufflePasses P n passes items (5 * k) (shuffleSeed P round k) =
      some (swapsAt P round n ((List.range' (5 * k) (n - 5 * k)).filter isSwapped) items) := by
  induction passes generalizing k items with
  | zero =>
      have hnone : n - 5 * k = 0 := by omega
      rw [hnone]
      unfold shufflePasses
      rw [if_neg (by omega)]
      rfl
  | succ passes ih =>
      by_cases hk : 5 * k < n
      · have hseed : P.sha256 (shuffleSeed P round k) = shuffleSeed P round (k + 1) :=
          (Function.iterate_succ_apply' _ _ _).symm
        unfold shufflePasses
        rw [if_pos hk]
        change shufflePasses P n passes
          ((List.range 4).foldl (shuffleStep (shuffleSeed P round k) n) (items, 5 * k)).1
          (((List.range 4).foldl (shuffleStep (shuffleSeed P round k) n) (items, 5 * k)).2 + 1) _ = _
        rw [shufflePass_eq hk.le (Nat.le_refl 4), hseed, filter_isSwapped hk, swapsAt_append]
        dsimp only
        by_cases hlast : n < 5 * k + 4
        · -- the last pass is cut short, and the loop ends behind it
          have hnone : n - 5 * (k + 1) = 0 := by omega
          have hend : ¬ 5 * k + min 4 (n - 5 * k) + 1 < n := by omega
          rw [hnone]
          cases passes with
          | zero =>
              unfold shufflePasses
              rw [if_neg hend]
              rfl
          | succ passes =>
              unfold shufflePasses
              rw [if_neg hend]
              rfl
        · have hnext : 5 * k + min 4 (n - 5 * k) + 1 = 5 * (k + 1) := by omega
          rw [hnext]
          exact ih (by omega)
      · have hnone : n - 5 * k = 0 := by omega
        rw [hnone]
        unfold shufflePasses
        rw [if_neg hk]
        rfl

/-- The swaps at all positions but every fifth one, in order.  A fifth as many passes as there are
delegates end the loop, and no delegate is lost. -/
theorem shuffle_closed_form (P : Primitives) (items : List α) (round : Nat) :
    (∀ passes, items.length ≤ 5 * passes →
      shufflePasses P items.length passes items 0 (P.sha256 (utf8Bytes (Text.ofNat round))) =
        some (shuffle P items round)) ∧
    shuffle P items round = swapsAt P round items.length
      ((List.range items.length).filter isSwapped) items ∧
    (shuffle P items round).Perm items := by
  have hpasses : ∀ passes, items.length ≤ 5 * passes →
      shufflePasses P items.length passes items 0 (P.sha256 (utf8Bytes (Text.ofNat round))) =
        some (swapsAt P round items.length ((List.range items.length).filter isSwapped) items) := by
    intro passes h
    rw [List.range_eq_range']
    exact shufflePasses_eq (k := 0) (by omega)
  have hshuffle : shuffle P items round =
      swapsAt P round items.length ((List.range items.length).filter isSwapped) items :=
    shuffleFrom_of_passes (hpasses items.length (by omega))
  refine ⟨?_, hshuffle, ?_⟩
  · rw [hshuffle]
    exact hpasses
  · rw [hshuffle]
    exact swapsAt_perm P round _ _ items

end SthCore
