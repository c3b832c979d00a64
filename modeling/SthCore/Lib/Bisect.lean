import SthCore.Lib.Result

/-!
Bisection of an interval by a test that may fail: the first place where a
property that is lost once along the interval no longer holds.
-/

namespace SthCore.Lib

variable {ε : Type*}

/-- Halve `[lo, hi)` until it is empty: upwards where the test holds, downwards where not. -/
def bisect (below : Nat → Except ε Bool) : Nat → Nat → Nat → Except ε Nat
  | 0, lo, _ => .ok lo
  | fuel + 1, lo, hi =>
      if lo < hi then do
        let mid := lo + (hi - lo) / 2
        if ← below mid then bisect below fuel (mid + 1) hi else bisect below fuel lo mid
      else .ok lo

/-- The place that bisection finds: the test holds before it and not from there on. -/
structure Turns (p : Nat → Prop) (lo hi r : Nat) : Prop where
  above : lo ≤ r
  inside : r ≤ hi
  before : ∀ k, lo ≤ k → k < r → p k
  after : ∀ k, r ≤ k → k < hi → ¬ p k

variable {below : Nat → Except ε Bool} {p : Nat → Prop}

theorem bisect_turns {lo hi fuel : Nat} (hle : lo ≤ hi)
    (hread : ∀ k, lo ≤ k → k < hi → ∃ b, below k = .ok b ∧ (b = true ↔ p k))
    (hdown : ∀ k l, lo ≤ k → k ≤ l → l < hi → p l → p k) (hfuel : hi - lo ≤ fuel) :
    ∃ r, bisect below fuel lo hi = .ok r ∧ Turns p lo hi r := by
  induction fuel generalizing lo hi with
  | zero =>
      have hempty : lo = hi := by omega
      refine ⟨lo, rfl, le_rfl, hle, ?_, ?_⟩
      · intro k hk hlt
        omega
      · intro k hk hlt
        omega
  | succ fuel ih =>
      rw [bisect]
      by_cases hlt : lo < hi
      · rw [if_pos hlt]
        simp only
        obtain ⟨b, hb, hp⟩ := hread (lo + (hi - lo) / 2) (by omega) (by omega)
        rw [hb, ok_bind]
        cases b with
        | true =>
            have hmid := hp.mp rfl
            have hright : lo + (hi - lo) / 2 + 1 ≤ hi := by omega
            obtain ⟨r, hr, hturns⟩ := ih hright
              (fun k hk hlt => hread k (by omega) hlt)
              (fun k l hk hkl hl => hdown k l (by omega) hkl hl) (by omega)
            refine ⟨r, hr, ?_, hturns.inside, ?_, hturns.after⟩
            · have := hturns.above
              omega
            · intro k hk hlt
              by_cases hlow : k ≤ lo + (hi - lo) / 2
              · exact hdown k _ hk hlow (by omega) hmid
              · exact hturns.before k (by omega) hlt
        | false =>
            have hmid : ¬ p (lo + (hi - lo) / 2) := fun h => Bool.noConfusion (hp.mpr h)
            have hleft : lo ≤ lo + (hi - lo) / 2 := by omega
            obtain ⟨r, hr, hturns⟩ := ih hleft
              (fun k hk hlt => hread k hk (by omega))
              (fun k l hk hkl hl => hdown k l hk hkl (by omega)) (by omega)
            refine ⟨r, hr, hturns.above, ?_, hturns.before, ?_⟩
            · have := hturns.inside
              omega
            · intro k hk hlt hpk
              by_cases hlow : k < lo + (hi - lo) / 2
              · exact hturns.after k hk hlow hpk
              · exact hmid (hdown _ k (by omega) (by omega) hlt hpk)
      · rw [if_neg hlt]
        refine ⟨lo, rfl, le_rfl, hle, ?_, ?_⟩
        · intro k hk hk'
          omega
        · intro k hk hk'
          omega

end SthCore.Lib
