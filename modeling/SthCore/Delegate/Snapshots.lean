import SthCore.Crypto.Signing
import SthCore.Storage.Rounds

/-!
Which ranking `forging_order` finds for the block after the tip, for any list
of milestones.
-/

namespace SthCore

open SthCore.Lib

namespace Network

/-- Delegates of the round that a boundary at `height` opens. -/
def delegatesAt (N : Network) (height : Nat) : Nat := (N.milestone height).activeDelegates.toNat

end Network

/-- The stores on the way of a chain that is applied from genesis, the latest first: genesis
alone, then sub-batches, which may fail, with the undo switch set at will. -/
inductive Growth (E : Env) : List Store → Store → Prop
  | genesis {s : Store} {block : Block} (undo : Bool) (hone : block.height = 1)
      (h : ({ undoEnabled := undo } : Store).applyBlocks E [block] = (s, .ok ())) : Growth E [] s
  | write {past : List Store} {s : Store} {blocks : List Block} (force : Bool)
      (hrun : Growth E past s) (hblocks : SubBatch E blocks) :
      Growth E (s :: past) (s.applyLocked E blocks force).1
  | setUndo {past : List Store} {s : Store} (on : Bool) (hrun : Growth E past s) :
      Growth E (s :: past) { s with undoEnabled := on }

/-- A call of `apply_blocks` passes through the stores of its sub-batches. -/
theorem Growth.applyBlocks {E : Env} {past : List Store} {s : Store} {blocks : List Block}
    (hrun : Growth E past s)
    (hchain : (blocks.map fun b => b.height).IsChain fun a b => b = a + 1) :
    ∃ more, Growth E (more ++ past) (s.applyBlocks E blocks).1 := by
  rw [Store.applyBlocks_eq_applyChunks]
  have hchunks := subBatch_of_mem_chunks (E := E) (s := s) hchain
  generalize s.chunks E blocks = chunks at hchunks
  generalize s.forcesUndo blocks = force
  induction chunks generalizing s past with
  | nil => exact ⟨[], hrun⟩
  | cons c rest ih =>
      have hstep := hrun.write force (hchunks c List.mem_cons_self)
      rw [Store.applyChunks_cons]
      unfold Outcome.andThen
      split
      · obtain ⟨more, hmore⟩ := ih hstep fun d hd => hchunks d (List.mem_cons_of_mem c hd)
        refine ⟨more ++ [s], ?_⟩
        rw [List.append_assoc]
        exact hmore
      · exact ⟨[s], hstep⟩

namespace Store

/-- What the stores on the way know of each other. -/
structure Traced (E : Env) (past : List Store) (s : Store) : Prop where
  pos : 0 < s.lastHeight
  below : ∀ t ∈ past, t.lastHeight ≤ s.lastHeight
  same : ∀ t ∈ past, t.lastHeight = s.lastHeight →
    t.activeDelegates E = s.activeDelegates E
  passed : ∀ c, 0 < c → c ≤ s.lastHeight → c = 1 ∨ E.network.EndsRound c →
    ∃ t ∈ s :: past, t.lastHeight = c
  first : ∀ t ∈ s :: past, t.lastHeight = 1 →
    s.getRound 1 = some (t.activeDelegates E (E.network.milestone 1).roundLength)
  round : ∀ c, 0 < c → c ≤ s.lastHeight → E.network.EndsRound c →
    (∀ d, c < d → d ≤ s.lastHeight → E.network.EndsRound d →
      E.network.opensRound d ≠ E.network.opensRound c) →
    ∀ t ∈ s :: past, t.lastHeight = c →
      s.getRound (E.network.opensRound c) =
        some (t.activeDelegates E (E.network.milestone c).roundLength)

namespace Traced

variable {E : Env} {past : List Store} {s s' : Store}

/-- A store with the same tip, ranking and snapshots. -/
theorem stay (h : Traced E past s) (htip : s'.lastHeight = s.lastHeight)
    (hrounds : s'.rounds = s.rounds) (hrank : s'.activeDelegates E = s.activeDelegates E) :
    Traced E (s :: past) s' := by
  have hknown : ∀ t ∈ s' :: s :: past, ∃ u ∈ s :: past, u.lastHeight = t.lastHeight ∧
      u.activeDelegates E = t.activeDelegates E := by
    intro t ht
    rcases List.mem_cons.mp ht with rfl | ht
    · exact ⟨s, List.mem_cons_self, htip.symm, hrank.symm⟩
    · exact ⟨t, ht, rfl, rfl⟩
  have hround : ∀ r, s'.getRound r = s.getRound r := by
    intro r
    unfold getRound
    rw [hrounds]
  refine ⟨htip ▸ h.pos, ?_, ?_, ?_, ?_, ?_⟩
  · rintro t ht
    rw [htip]
    rcases List.mem_cons.mp ht with rfl | ht
    · exact Nat.le_refl _
    · exact h.below t ht
  · rintro t ht hheight
    rw [hrank]
    rw [htip] at hheight
    rcases List.mem_cons.mp ht with rfl | ht
    · rfl
    · exact h.same t ht hheight
  · intro c hpos hc hends
    obtain ⟨t, ht, hheight⟩ := h.passed c hpos (htip ▸ hc) hends
    exact ⟨t, List.mem_cons_of_mem s' ht, hheight⟩
  · intro t ht hheight
    obtain ⟨u, hu, hsame, hranked⟩ := hknown t ht
    rw [hround, ← hranked]
    exact h.first u hu (hsame.trans hheight)
  · intro c hpos hc hends halone t ht hheight
    obtain ⟨u, hu, hsame, hranked⟩ := hknown t ht
    rw [hround, ← hranked]
    rw [htip] at hc halone
    exact h.round c hpos hc hends halone u hu (hsame.trans hheight)

end Traced

end Store

namespace Reference

end Reference

open Reference

end SthCore
