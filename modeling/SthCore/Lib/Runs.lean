import Mathlib.Data.List.Induction

/-!
Runs of a system that takes steps: the states that steps reach when each of
them meets a condition, and what all of these states have in common.
-/

namespace SthCore.Lib

variable {σ α : Type*}

/-- The states reached from `s` by steps that each meet a condition on the state before them. -/
inductive Reaches (step : σ → α → Option σ) (good : σ → α → Prop) (s : σ) : σ → Prop
  | start : Reaches step good s s
  | next {t u : σ} (a : α) :
      Reaches step good s t → good t a → step t a = some u → Reaches step good s u

/-- The state after a list of actions; nothing when a step is impossible or does not meet the
condition. -/
def follow (step : σ → α → Option σ) (good : σ → α → Prop) [∀ t a, Decidable (good t a)] (s : σ)
    (actions : List α) : Option σ :=
  actions.foldlM (fun t a => if good t a then step t a else none) s

namespace Reaches

variable {step : σ → α → Option σ} {good : σ → α → Prop} {s t : σ}

/-- What holds at the start and survives every step holds in every state. -/
theorem invariant {I : σ → Prop} (h : Reaches step good s t) (hstart : I s)
    (hstep : ∀ t a u, I t → good t a → step t a = some u → I u) : I t := by
  induction h with
  | start => exact hstart
  | next a _ hgood hnext ih => exact hstep _ a _ ih hgood hnext

/-- One run after another. -/
theorem trans {u : σ} (h : Reaches step good s t) (h' : Reaches step good t u) :
    Reaches step good s u := by
  induction h' with
  | start => exact h
  | next a _ hgood hnext ih => exact .next a ih hgood hnext

/-- A weaker condition allows the same run. -/
theorem mono {good' : σ → α → Prop} (h : Reaches step good s t)
    (hgood : ∀ u a, good u a → good' u a) : Reaches step good' s t := by
  induction h with
  | start => exact .start
  | next a _ ha hnext ih => exact .next a ih (hgood _ a ha) hnext

/-- A run given by its actions, each of which is seen to meet the condition. -/
theorem of_follow [∀ t a, Decidable (good t a)] {actions : List α}
    (h : follow step good s actions = some t) : Reaches step good s t := by
  induction actions using List.reverseRecOn generalizing t with
  | nil =>
      unfold follow at h
      rw [List.foldlM_nil] at h
      injection h with h
      exact h ▸ .start
  | append_singleton front a ih =>
      unfold follow at h
      rw [List.foldlM_append] at h
      obtain ⟨u, hu, hlast⟩ := Option.bind_eq_some_iff.mp h
      rw [List.foldlM_cons] at hlast
      obtain ⟨v, hv, hend⟩ := Option.bind_eq_some_iff.mp hlast
      rw [List.foldlM_nil] at hend
      injection hend with hend
      subst hend
      split_ifs at hv with hgood
      exact .next a (ih hu) hgood hv

theorem of_foldlM {actions : List α} (hgood : ∀ t, ∀ a ∈ actions, good t a)
    (h : actions.foldlM step s = some t) : Reaches step good s t := by
  induction actions generalizing s with
  | nil =>
      rw [List.foldlM_nil] at h
      injection h with h
      exact h ▸ .start
  | cons a rest ih =>
      rw [List.foldlM_cons] at h
      obtain ⟨u, hu, hrest⟩ := Option.bind_eq_some_iff.mp h
      have hfirst : Reaches step good s u := .next a .start (hgood s a (.head _)) hu
      exact hfirst.trans (ih (fun t b hb => hgood t b (.tail _ hb)) hrest)

end Reaches

end SthCore.Lib
