import SthCore.Storage.Rollback
import SthCore.Sync

/-!
The second way into the chain: a block at the height of the tip may replace it.
-/

namespace SthCore

/-- `prefer_earlier_slot`: swap the tip for a block of the same parent from an earlier slot.
The other block goes to the store without `sync::apply_blocks`. -/
def preferEarlierSlot (E : Env) (s : Store) (ours theirs : Block) : Store × Bool :=
  let tip := s.lastHeight
  if ours.height ≠ tip ∨ theirs.height ≠ tip ∨ theirs.timestamp ≥ ours.timestamp ∨
      theirs.previousBlock ≠ ours.previousBlock then
    (s, false)
  else if (verifyBlockSignature E.prim theirs).toOption ≠ some true then (s, false)
  else if s.latestFinalityCert.any fun c => decide (tip ≤ c.height) then (s, false)
  else
    match s.rollbackTo E (tip - 1) with
    | (s, .error _) => (s, false)
    | (s, .ok _) =>
        match s.applyBlocks E [theirs] with
        | (s, .ok _) => (s, true)
        | (s, .error _) => ((s.applyBlocks E [ours]).1, false)

end SthCore
