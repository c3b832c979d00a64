import Mathlib

/-!
A log of records by height, each of which leads a state back to where it was one
height below.  A machine that went up and came down again along its log is back
in the state it started from.
-/

namespace SthCore.Lib

variable {σ ρ : Type*} {unwind : σ → ρ → σ}

/-- The states of a machine since it was at `base`, one for each height, with every record of the
log between a state and the one below it. -/
structure Trail (unwind : σ → ρ → σ) (base : ℕ) (start : σ) (log : ℕ → Option ρ) (tip : ℕ)
    (now : σ) : Prop where
  le : base ≤ tip
  above : ∀ h, tip < h → log h = none
  states : ∃ state : ℕ → σ, state base = start ∧ state tip = now ∧
    ∀ h r, base < h → h ≤ tip → log h = some r → unwind (state h) r = state (h - 1)

namespace Trail

variable {base tip tip' : ℕ} {start now now' : σ} {log log' : ℕ → Option ρ} {r : ρ}

theorem refl (habove : ∀ h, tip < h → log h = none) : Trail unwind tip now log tip now where
  le := le_rfl
  above := habove
  states := ⟨fun _ => now, rfl, rfl, fun _ _ hlow hhigh => absurd hhigh (by omega)⟩

/-- Records may be forgotten. -/
theorem forget (t : Trail unwind base start log tip now)
    (hsub : ∀ h r, log' h = some r → log h = some r) :
    Trail unwind base start log' tip now := by
  obtain ⟨state, hbase, htip, hback⟩ := t.states
  refine ⟨t.le, ?_, state, hbase, htip, ?_⟩
  · intro h hhigh
    refine Option.eq_none_iff_forall_ne_some.mpr ?_
    intro r hr
    have hsome := hsub h r hr
    rw [t.above h hhigh] at hsome
    cases hsome
  · intro h r hlow hhigh hr
    exact hback h r hlow hhigh (hsub h r hr)

/-- The machine goes up, and leaves a record for one of the new heights or none. -/
theorem extend {low : ℕ} (t : Trail unwind base start log tip now) (hlow : tip < low)
    (hup : low ≤ tip')
    (hlog : ∀ h r, log' h = some r → log h = some r ∨ h = low ∧ unwind now' r = now) :
    Trail unwind base start log' tip' now' := by
  obtain ⟨state, hbase, htip, hback⟩ := t.states
  have hle := t.le
  -- the state stays as it was up to the height of the record
  refine ⟨by omega, ?_, fun h => if h < low then state (min h tip) else now', ?_, ?_, ?_⟩
  · intro h hhigh
    refine Option.eq_none_iff_forall_ne_some.mpr ?_
    intro r hr
    rcases hlog h r hr with hold | ⟨rfl, -⟩
    · rw [t.above h (by omega)] at hold
      cases hold
    · omega
  · dsimp only
    rw [if_pos (by omega), Nat.min_eq_left hle]
    exact hbase
  · exact if_neg (by omega)
  · intro h r hpos hhigh hr
    dsimp only
    rcases hlog h r hr with hold | ⟨rfl, hnew⟩
    · have hbelow : h ≤ tip := by
        by_contra habove
        rw [t.above h (by omega)] at hold
        cases hold
      rw [if_pos (by omega), if_pos (by omega), Nat.min_eq_left hbelow,
        Nat.min_eq_left (by omega)]
      exact hback h r hpos hbelow hold
    · rw [if_neg (by omega), if_pos (by omega), Nat.min_eq_right (by omega), htip]
      exact hnew

/-- The machine goes down along the record of the tip. -/
theorem back (t : Trail unwind base start log tip now) (hlow : base < tip)
    (hrec : log tip = some r) (hsub : ∀ h r, log' h = some r → log h = some r ∧ h ≠ tip) :
    Trail unwind base start log' (tip - 1) (unwind now r) := by
  obtain ⟨state, hbase, htip, hback⟩ := t.states
  refine ⟨by omega, ?_, state, hbase, ?_, ?_⟩
  · intro h hhigh
    refine Option.eq_none_iff_forall_ne_some.mpr ?_
    intro r' hr
    obtain ⟨hold, hne⟩ := hsub h r' hr
    rw [t.above h (by omega)] at hold
    cases hold
  · rw [← hback tip r hlow le_rfl hrec, htip]
  · intro h r' hlow' hhigh hr
    exact hback h r' hlow' (by omega) (hsub h r' hr).1

theorem returned (t : Trail unwind base start log tip now) (h : tip = base) : now = start := by
  subst h
  obtain ⟨state, hbase, htip, -⟩ := t.states
  exact htip.symm.trans hbase

end Trail

end SthCore.Lib
