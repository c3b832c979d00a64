import SthCore.Lib.Schedule
import SthCore.Config
import SthCore.Storage.Wallet

/-!
The supply in circulation: the genesis total and the block rewards up to a
height, summed milestone by milestone.
-/

namespace SthCore

open SthCore.Lib

/-- A network with the total amount of its genesis block. -/
structure FundedNetwork extends Network where
  genesisTotalAmount : UInt64

/-- What the loop of `supply` adds for the milestones of a suffix of the list. -/
def supplyFrom (height : UInt64) : List Milestone → UInt64 → UInt64
  | [], total => total
  | ms :: rest, total =>
      if ms.reward = 0 then supplyFrom height rest total
      else
        let start := max ms.height 1
        let stop := min ((rest.head?.map (·.height - 1)).getD (2 ^ 64 - 1)) height.toNat
        if start ≤ stop then
          supplyFrom height rest
            (satAdd total (satMul ms.reward (UInt64.ofNat (stop - start + 1))))
        else supplyFrom height rest total

/-- Circulating supply at `height`. -/
def FundedNetwork.supply (n : FundedNetwork) (height : UInt64) : UInt64 :=
  supplyFrom height n.milestones n.genesisTotalAmount

/-- The first block of a milestone: height 0 carries no reward. -/
def Milestone.firstBlock (m : Milestone) : Nat := max m.height 1

/-- What a milestone contributes up to a height. -/
def Milestone.emission (m : Milestone) (height : Nat) (rest : List Milestone) : Nat :=
  m.reward.toNat * (pieceEnd Milestone.firstBlock height rest - m.firstBlock)

theorem satAdd_toNat {a b : UInt64} (h : a.toNat + b.toNat < 2 ^ 64) :
    (satAdd a b).toNat = a.toNat + b.toNat := by
  unfold satAdd
  rw [Nat.min_eq_left (by omega), UInt64.toNat_ofNat_of_lt' h]

theorem satMul_toNat {a b : UInt64} (h : a.toNat * b.toNat < 2 ^ 64) :
    (satMul a b).toNat = a.toNat * b.toNat := by
  unfold satMul
  rw [Nat.min_eq_left (by omega), UInt64.toNat_ofNat_of_lt' h]

/-- The number of blocks of a milestone up to a height, as the loop computes it. -/
theorem pieceEnd_sub_firstBlock (m : Milestone) (height : UInt64) (rest : List Milestone) :
    let stop := min ((rest.head?.map (·.height - 1)).getD (2 ^ 64 - 1)) height.toNat
    pieceEnd Milestone.firstBlock height.toNat rest - m.firstBlock =
      if max m.height 1 ≤ stop then stop - max m.height 1 + 1 else 0 := by
  intro stop
  have hlt := height.toNat_lt
  cases rest with
  | nil =>
      change height.toNat + 1 - max m.height 1 = _
      have hstop : stop = min (2 ^ 64 - 1) height.toNat := rfl
      split_ifs <;> omega
  | cons b rest =>
      change min (max b.height 1) (height.toNat + 1) - max m.height 1 = _
      have hstop : stop = min (b.height - 1) height.toNat := rfl
      split_ifs <;> omega

/-- One round of the loop adds what the milestone contributes. -/
theorem supplyFrom_cons {height total : UInt64} {m : Milestone} {rest : List Milestone}
    (hfit : total.toNat + m.emission height.toNat rest < 2 ^ 64) :
    ∃ next : UInt64, next.toNat = total.toNat + m.emission height.toNat rest ∧
      supplyFrom height (m :: rest) total = supplyFrom height rest next := by
  have hblocks := pieceEnd_sub_firstBlock m height rest
  have hlt := height.toNat_lt
  unfold Milestone.emission at hfit ⊢
  simp only [supplyFrom]
  dsimp only at hblocks
  generalize hstop : min ((rest.head?.map (·.height - 1)).getD (2 ^ 64 - 1)) height.toNat = stop
    at hblocks ⊢
  have hle : stop ≤ height.toNat := hstop ▸ min_le_right _ _
  rw [hblocks] at hfit ⊢
  by_cases hreward : m.reward = 0
  · refine ⟨total, ?_, by rw [if_pos hreward]⟩
    rw [hreward, UInt64.toNat_zero, Nat.zero_mul, Nat.add_zero]
  · rw [if_neg hreward]
    by_cases hstart : max m.height 1 ≤ stop
    · rw [if_pos hstart] at hfit ⊢
      have hcount : (UInt64.ofNat (stop - max m.height 1 + 1)).toNat =
          stop - max m.height 1 + 1 :=
        UInt64.toNat_ofNat_of_lt' (show stop - max m.height 1 + 1 < 2 ^ 64 by omega)
      have hmul := satMul_toNat (a := m.reward) (b := UInt64.ofNat (stop - max m.height 1 + 1))
        (by rw [hcount]; omega)
      rw [hcount] at hmul
      refine ⟨_, ?_, if_pos hstart⟩
      rw [satAdd_toNat (by rw [hmul]; exact hfit), hmul]
    · rw [if_neg hstart] at hfit ⊢
      exact ⟨total, rfl, if_neg hstart⟩

/-- The loop adds the contributions of all milestones, as long as they fit. -/
theorem supplyFrom_toNat {height total : UInt64} {milestones : List Milestone}
    (hfit : total.toNat +
      pieces Milestone.firstBlock (·.reward.toNat) height.toNat milestones < 2 ^ 64) :
    (supplyFrom height milestones total).toNat =
      total.toNat + pieces Milestone.firstBlock (·.reward.toNat) height.toNat milestones := by
  induction milestones generalizing total with
  | nil => rfl
  | cons m rest ih =>
      change total.toNat + (m.emission height.toNat rest + _) < 2 ^ 64 at hfit
      change _ = total.toNat + (m.emission height.toNat rest + _)
      obtain ⟨next, hnext, hloop⟩ :=
        @supplyFrom_cons height total m rest (by omega)
      rw [hloop, ih (by rw [hnext]; omega), hnext, Nat.add_assoc]

/-- The milestone of a block is the last one whose first block it has reached. -/
theorem milestone_eq_inForce {n : Network} {height : Nat} (hpos : 1 ≤ height) :
    n.milestone height =
      (inForce Milestone.firstBlock n.milestones height).getD (n.milestones.head n.nonempty) := by
  have hreached : ∀ m : Milestone,
      decide (m.height ≤ max height 1) = decide (m.firstBlock ≤ height) := by
    intro m
    unfold Milestone.firstBlock
    rw [decide_eq_decide]
    omega
  unfold Network.milestone inForce
  simp only [hreached]

/-- The supply at a height is the genesis total and the reward of every block up to it. -/
theorem supply_eq_sum (n : FundedNetwork) (height : UInt64)
    (hsorted : n.milestones.Pairwise fun a b => a.height ≤ b.height)
    (hfirst : (n.milestones.head n.nonempty).height ≤ 1)
    (hfit : n.genesisTotalAmount.toNat +
      ∑ i ∈ Finset.Icc 1 height.toNat, (n.milestone i).reward.toNat < 2 ^ 64) :
    (n.supply height).toNat = n.genesisTotalAmount.toNat +
      ∑ i ∈ Finset.Icc 1 height.toNat, (n.milestone i).reward.toNat := by
  have hsum : ∑ i ∈ Finset.Icc 1 height.toNat, (n.milestone i).reward.toNat =
      pieces Milestone.firstBlock (·.reward.toNat) height.toNat n.milestones := by
    cases hmilestones : n.milestones with
    | nil => exact absurd hmilestones n.nonempty
    | cons m rest =>
        have hstart : m.firstBlock = 1 := by
          simp only [hmilestones, List.head_cons] at hfirst
          exact max_eq_right hfirst
        rw [hmilestones] at hsorted
        have hplaces : (m :: rest).Pairwise fun a b => a.firstBlock ≤ b.firstBlock :=
          hsorted.imp fun hab => max_le_max_right 1 hab
        rw [← sum_inForce height.toNat hplaces, hstart]
        refine Finset.sum_congr rfl fun i hi => ?_
        have hpos := (Finset.mem_Icc.mp hi).1
        have hreached : (inForce Milestone.firstBlock (m :: rest) i).isSome :=
          inForce_isSome List.mem_cons_self (hstart.trans_le hpos)
        obtain ⟨found, hfound⟩ := Option.isSome_iff_exists.mp hreached
        have hactive : n.milestone i = found := by
          rw [milestone_eq_inForce hpos]
          simp only [hmilestones, hfound, Option.getD_some]
        rw [hactive, hfound]
        rfl
  rw [hsum] at hfit ⊢
  exact supplyFrom_toNat hfit

/-- Two milestones at the first block, one without a reward, and two later ones. -/
def steppedNetwork : FundedNetwork where
  nethash := ""
  genesisBlockId := ""
  burnAddress := ""
  epochUnix := 0
  milestones := [{ height := 0, reward := 9 }, { height := 1, reward := 2 }, { height := 4 },
    { height := 6, reward := 5 }]
  nonempty := List.cons_ne_nil _ _
  genesisTotalAmount := 100

theorem supply_eq_sum_stepped : (steppedNetwork.supply 7).toNat =
    100 + ∑ i ∈ Finset.Icc 1 7, (steppedNetwork.milestone i).reward.toNat :=
  supply_eq_sum steppedNetwork 7 (by decide) (by decide) (by decide)

end SthCore
