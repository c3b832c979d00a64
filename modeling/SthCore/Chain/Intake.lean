import SthCore.Chain.Verified
import SthCore.Finality.Equivocation
import SthCore.Intake

/-!
What the two ways into the chain check of a block, and what they do not.
-/

namespace SthCore

open SthCore.Lib

namespace VerifyBlock

end VerifyBlock

namespace Sync

theorem checkCrypto_eq_ok {E : Env} {block : Block} :
    checkCrypto E true block = .ok () ↔ block.id.isSome ∧ verifyBlock E block = [] := by
  unfold checkCrypto
  cases hid : block.id with
  | none => simp
  | some id =>
      cases hverify : verifyBlock E block with
      | nil => simp
      | cons e rest => simp

theorem forM_eq_ok {f : Block → Except Error Unit} {blocks : List Block} :
    blocks.forM f = .ok () ↔ ∀ b ∈ blocks, f b = .ok () := by
  refine ⟨forM_ok_mem, ?_⟩
  intro h
  induction blocks with
  | nil => rfl
  | cons b rest ih =>
      refine bind_eq_ok.mpr ⟨(), h b List.mem_cons_self, ih ?_⟩
      exact fun c hc => h c (List.mem_cons_of_mem b hc)

/-- The checks of `sync::apply_blocks` pass. -/
theorem checkBlocks_eq_ok {E : Env} {s : Store} {blocks : List Block} {tip tip' : ChainTip} :
    checkBlocks E s blocks tip true = .ok tip' ↔
      blocks.foldlM (link E) tip = .ok tip' ∧
      (∀ b ∈ blocks, b.id.isSome ∧ verifyBlock E b = []) ∧
      ∃ b, checkStatefulRules E s blocks = .ok b := by
  have hcrypto : (∀ b ∈ blocks, b.id.isSome ∧ verifyBlock E b = []) ↔
      blocks.forM (checkCrypto E true) = .ok () := by
    rw [forM_eq_ok]
    exact forall₂_congr fun b _ => checkCrypto_eq_ok.symm
  rw [hcrypto]
  unfold checkBlocks
  simp only [if_true]
  constructor
  · intro h
    obtain ⟨tip₁, hlink, h⟩ := bind_eq_ok.mp h
    obtain ⟨_, hforM, h⟩ := bind_eq_ok.mp h
    obtain ⟨b, hrules, h⟩ := bind_eq_ok.mp h
    rw [pure_eq_ok] at h
    exact ⟨h ▸ hlink, hforM, b, hrules⟩
  · rintro ⟨hlink, hforM, b, hrules⟩
    rw [hlink, hforM, hrules]
    rfl

end Sync

namespace Reference

/-- A block of the delegate in the next slot. -/
def scheduled : Block := first.forge 2 8 (delegateGenesis.id.getD "") 0 []

end Reference

open Reference

namespace Reference

end Reference

end SthCore
