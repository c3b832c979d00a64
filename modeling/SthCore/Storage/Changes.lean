import SthCore.Storage.Rounds

/-!
What tasks that run at the same time write to the store, one locked step each.
-/

namespace SthCore

open SthCore.Lib

inductive Change where
  | write (blocks : List Block) (force : Bool)
  | rollback
  | certify (cert : FinalityCert)
  | accuse (proof : EquivocationProof)
  | setUndo (on : Bool)

def Store.change (E : Env) (s : Store) : Change → Store
  | .write blocks force => (s.applyLocked E blocks force).1
  | .rollback => (s.rollbackLastBlock E).1
  | .certify cert => s.putFinalityCert cert
  | .accuse proof => s.putEquivocation proof
  | .setUndo on => { s with undoEnabled := on }

/-- Blocks are written in the sub-batches of `apply_blocks`. -/
def Change.Orderly (E : Env) : Change → Prop
  | .write blocks _ => SubBatch E blocks
  | _ => True

instance (E : Env) : (c : Change) → Decidable (c.Orderly E)
  | .write blocks _ => inferInstanceAs (Decidable (SubBatch E blocks))
  | .rollback | .certify _ | .accuse _ | .setUndo _ => .isTrue trivial

namespace Store

/-- The change neither writes nor drops the snapshot of the round. -/
def KeepsRound (E : Env) (s : Store) (round : Nat) : Change → Prop
  | .write blocks _ => ∀ last ∈ blocks.getLast?,
      E.network.EndsRound last.height → E.network.opensRound last.height ≠ round
  | .rollback => E.network.EndsRound s.lastHeight → E.network.opensRound s.lastHeight ≠ round
  | _ => True

instance (E : Env) (s : Store) (round : Nat) : (c : Change) → Decidable (s.KeepsRound E round c)
  | .write blocks _ => inferInstanceAs (Decidable (∀ last ∈ blocks.getLast?, _))
  | .rollback => inferInstanceAs (Decidable (_ → _))
  | .certify _ | .accuse _ | .setUndo _ => .isTrue trivial

theorem change_lastHeight_pos {E : Env} {s : Store} {c : Change} (horderly : c.Orderly E)
    (hpos : 0 < s.lastHeight) : 0 < (s.change E c).lastHeight := by
  cases c with
  | write blocks force =>
      have hchain := SubBatch.chain horderly
      change 0 < (s.applyLocked E blocks force).1.lastHeight
      rcases applyLocked_grown E s force hchain with ⟨e, he⟩ | ⟨⟨g⟩⟩
      · rw [he]
        exact hpos
      · obtain ⟨-, habove⟩ := g.tip_eq hchain hpos
        exact Nat.lt_trans hpos habove
  | rollback =>
      change 0 < (s.rollbackLastBlock E).1.lastHeight
      rcases hback : s.rollbackLastBlock E with ⟨s', e | tip⟩
      · obtain ⟨certs, rfl⟩ := rollbackLastBlock_error hback
        exact hpos
      · obtain ⟨-, ⟨hrolled⟩⟩ := rollbackLastBlock_eq_ok hback
        obtain ⟨-, -, hheight, -⟩ := hrolled.chain
        have habove := hrolled.above
        simp only
        omega
  | certify cert => exact hpos
  | accuse proof => exact hpos
  | setUndo on => exact hpos

theorem change_getRound {E : Env} {s : Store} {c : Change} {round : Nat} (horderly : c.Orderly E)
    (hpos : 0 < s.lastHeight) (hkeeps : s.KeepsRound E round c) :
    (s.change E c).getRound round = s.getRound round := by
  cases c with
  | write blocks force =>
      have hchain := SubBatch.chain horderly
      change (s.applyLocked E blocks force).1.getRound round = _
      rcases applyLocked_grown E s force hchain with ⟨e, he⟩ | ⟨⟨g⟩⟩
      · rw [he]
      · obtain ⟨htip, -⟩ := g.tip_eq hchain hpos
        refine g.getRound_eq hchain hpos ?_
        rw [htip]
        exact hkeeps g.last g.isLast
  | rollback =>
      change (s.rollbackLastBlock E).1.getRound round = _
      rcases hback : s.rollbackLastBlock E with ⟨s', e | tip⟩
      · obtain ⟨certs, rfl⟩ := rollbackLastBlock_error hback
        rfl
      · obtain ⟨-, ⟨hrolled⟩⟩ := rollbackLastBlock_eq_ok hback
        exact hrolled.getRound_eq hkeeps
  | certify cert => rfl
  | accuse proof => rfl
  | setUndo on => rfl

end Store

end SthCore
