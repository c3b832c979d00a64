import SthCore.Storage.Reverted

/-!
The stored round snapshots: which one a sub-batch writes, and which ones a
rollback drops.
-/

namespace SthCore

open SthCore.Lib

theorem Milestone.roundLength_pos (m : Milestone) : 0 < m.roundLength := by
  unfold Milestone.roundLength
  omega

/-- The number under which the snapshot after a boundary block is stored. -/
theorem nextRound_of_boundary {height n : Nat} (hn : 0 < n) (hheight : 0 < height)
    (h : height % n = 0) : (roundInfo height n).nextRound = height / n + 1 := by
  obtain ⟨k, rfl⟩ := Nat.dvd_of_mod_eq_zero h
  cases k with
  | zero => simp at hheight
  | succ k =>
      have hone : max (n * (k + 1)) 1 = n * (k + 1) := Nat.max_eq_left hheight
      have hlast : n * (k + 1) - 1 = n * k + (n - 1) := by
        rw [Nat.mul_succ]
        omega
      have hround : (n * (k + 1) - 1) / n = k := by
        rw [hlast, Nat.mul_add_div hn, Nat.div_eq_of_lt (by omega), Nat.add_zero]
      simp only [roundInfo, hone, hround, Nat.mul_mod_right, if_true]
      rw [Nat.mul_div_cancel_left _ hn]

theorem two_le_nextRound {height n : Nat} (hn : 0 < n) (hheight : 0 < height)
    (h : height % n = 0) : 2 ≤ (roundInfo height n).nextRound := by
  rw [nextRound_of_boundary hn hheight h]
  have := Nat.div_pos (Nat.le_of_dvd hheight (Nat.dvd_of_mod_eq_zero h)) hn
  omega

namespace Network

/-- The block at `height` ends a round under the milestone of its own height. -/
def EndsRound (N : Network) (height : Nat) : Prop :=
  height % (N.milestone height).roundLength = 0

instance (N : Network) (height : Nat) : Decidable (N.EndsRound height) :=
  inferInstanceAs (Decidable (_ = _))

/-- The round whose snapshot the block at `height` writes when it ends a round. -/
def opensRound (N : Network) (height : Nat) : Nat :=
  (roundInfo height (N.milestone height).roundLength).nextRound

theorem two_le_opensRound {N : Network} {height : Nat} (hheight : 0 < height)
    (h : N.EndsRound height) : 2 ≤ N.opensRound height :=
  two_le_nextRound (Milestone.roundLength_pos _) hheight h

end Network

namespace Store

/-- The ranking reads no round snapshot and no statistics. -/
theorem SameLog.activeDelegates {E : Env} {s s' : Store} (h : SameLog s s') (count : Nat) :
    s'.activeDelegates E count = s.activeDelegates E count := by
  rw [h]
  rfl

theorem afterCommit_rounds {E : Env} {blocks : List Block} {last : Block}
    (hlast : blocks.getLast? = some last) (s : Store) :
    (s.afterCommit E blocks).1.rounds = (s.snapshotRoundIfBoundary E last.height).rounds := by
  cases blocks with
  | nil => cases hlast
  | cons first rest =>
      unfold afterCommit
      rw [hlast, List.head?_cons]
      exact (recordMissed_sameStats E _ _ _).rounds

theorem snapshotRound_rounds (E : Env) (s : Store) {height : Nat} (h : height ≠ 1) :
    (s.snapshotRoundIfBoundary E height).rounds =
      if E.network.EndsRound height then
        s.rounds.insert (E.network.opensRound height)
          (s.activeDelegates E (E.network.milestone height).roundLength)
      else s.rounds := by
  unfold snapshotRoundIfBoundary Network.EndsRound
  by_cases hends : height % (E.network.milestone height).roundLength = 0
  · simp only [h, hends, false_and, if_false, if_true, ne_eq, not_true]
    rfl
  · simp only [h, hends, false_and, if_false, if_true, ne_eq, not_false_eq_true]

theorem commitBlocks_rounds {E : Env} {s t : Store} {prepared : List (Block × List Bytes)}
    {undoOn : Bool} (h : s.commitBlocks E prepared undoOn = .ok t) : t.rounds = s.rounds := by
  obtain ⟨ds, -, h⟩ := bind_eq_ok.mp h
  cases prepared with
  | nil => exact absurd h throw_ne_ok
  | cons first rest =>
      obtain ⟨_, -, h⟩ := bind_eq_ok.mp h
      obtain ⟨⟨s₁, undo⟩, hwrite, h⟩ := bind_eq_ok.mp h
      obtain ⟨s₂, hblocks, h⟩ := bind_eq_ok.mp h
      rw [pure_eq_ok] at h
      obtain ⟨hwritten, -⟩ := writeWallets_eq_ok hwrite
      obtain ⟨-, -, -, hrounds, -⟩ := (writeEntries_sameRecords hwritten).chain
      have hkept : s₂.rounds = s.rounds := (writeBlocks_sameState hblocks).rounds.trans hrounds
      rw [← h]
      split_ifs
      · exact hkept
      · exact hkept

/-- A written list of blocks raises the tip to the highest of them. -/
theorem writeBlocks_lastHeight {E : Env} {s s' : Store} {l : List (Block × List Bytes)}
    (h : l.foldlM (writeBlock E) s = .ok s') :
    s'.lastHeight = (l.map fun p => p.1.height).foldl max s.lastHeight := by
  induction l generalizing s with
  | nil =>
      rw [foldlM_nil_ok] at h
      rw [← h]
      rfl
  | cons p rest ih =>
      obtain ⟨t, ht, h⟩ := foldlM_cons_ok.mp h
      rw [ih h, (writeBlock_blocks ht).2]
      rfl

end Store

/-- What `apply_blocks` writes at once: blocks of consecutive heights, and only the last of them
may end a round. -/
structure SubBatch (E : Env) (blocks : List Block) : Prop where
  chain : (blocks.map fun b => b.height).IsChain fun a b => b = a + 1
  inside : ∀ b ∈ blocks.dropLast, ¬ E.network.EndsRound b.height

instance (E : Env) (blocks : List Block) : Decidable (SubBatch E blocks) :=
  decidable_of_iff
    (((blocks.map fun b => b.height).IsChain fun a b => b = a + 1) ∧
      ∀ b ∈ blocks.dropLast, ¬ E.network.EndsRound b.height)
    ⟨fun h => ⟨h.1, h.2⟩, fun h => ⟨h.chain, h.inside⟩⟩

theorem subBatch_single (E : Env) (b : Block) : SubBatch E [b] :=
  ⟨List.isChain_singleton _, by simp⟩

theorem subBatch_of_mem_subBatches {E : Env} {blocks : List Block}
    (hchain : (blocks.map fun b => b.height).IsChain fun a b => b = a + 1) :
    ∀ chunk ∈ Store.subBatches E blocks, SubBatch E chunk := by
  induction blocks with
  | nil => simp [Store.subBatches]
  | cons b rest ih =>
      have hrest := ih hchain.tail
      unfold Store.subBatches
      split_ifs with hends
      · intro chunk hmem
        rcases List.mem_cons.mp hmem with rfl | hmem
        · exact subBatch_single E b
        · exact hrest chunk hmem
      · have hflat := Store.subBatches_flatten E rest
        cases hsub : Store.subBatches E rest with
        | nil =>
            rintro chunk hmem
            rw [List.mem_singleton.mp hmem]
            exact subBatch_single E b
        | cons first others =>
            rw [hsub] at hrest hflat
            intro chunk hmem
            rcases List.mem_cons.mp hmem with rfl | hmem
            · constructor
              · rw [← hflat, List.flatten_cons, ← List.cons_append, List.map_append] at hchain
                exact hchain.left_of_append
              · have hfirst := (hrest first List.mem_cons_self).inside
                cases first with
                | nil => simp
                | cons c cs =>
                    intro x hx
                    rcases List.mem_cons.mp hx with rfl | hx
                    · exact hends
                    · exact hfirst x hx
            · exact hrest chunk (List.mem_cons_of_mem first hmem)

theorem subBatch_of_mem_chunks {E : Env} {s : Store} {blocks : List Block}
    (hchain : (blocks.map fun b => b.height).IsChain fun a b => b = a + 1) :
    ∀ chunk ∈ s.chunks E blocks, SubBatch E chunk := by
  match blocks with
  | [] => simp [Store.chunks]
  | [b] =>
      intro chunk hmem
      rw [List.mem_singleton.mp hmem]
      exact subBatch_single E b
  | a :: b :: rest =>
      unfold Store.chunks
      split_ifs
      · intro chunk hmem
        obtain ⟨c, -, rfl⟩ := List.mem_map.mp hmem
        exact subBatch_single E c
      · exact subBatch_of_mem_subBatches hchain

theorem foldl_max_of_isChain {first last : Nat} (base : Nat) {rest : List Nat}
    (hchain : (first :: rest).IsChain fun a b => b = a + 1)
    (hlast : (first :: rest).getLast? = some last) :
    (first :: rest).foldl max base = max base last ∧ first ≤ last := by
  induction rest generalizing first base with
  | nil =>
      obtain rfl := Option.some.inj hlast
      exact ⟨rfl, Nat.le_refl _⟩
  | cons next rest ih =>
      obtain ⟨hnext, hrest⟩ := List.isChain_cons_cons.mp hchain
      rw [List.getLast?_cons_cons] at hlast
      obtain ⟨hmax, hle⟩ := ih (max base first) hrest hlast
      rw [List.foldl_cons, hmax]
      omega

namespace Store

/-- A sub-batch of blocks above the tip is written as a whole, and then the snapshot of its
last block is taken. -/
structure Grown (E : Env) (s : Store) (blocks : List Block) (s' : Store) where
  written : Store
  last : Block
  isLast : blocks.getLast? = some last
  next : s.lastHeight = 0 ∨ ∀ first ∈ blocks.head?, first.height = s.lastHeight + 1
  kept : written.rounds = s.rounds
  same : SameLog written s'
  tip : s'.lastHeight = max s.lastHeight last.height
  rounds : s'.rounds = (written.snapshotRoundIfBoundary E last.height).rounds

theorem applyLocked_grown (E : Env) (s : Store) {blocks : List Block} (force : Bool)
    (hchain : (blocks.map fun b => b.height).IsChain fun a b => b = a + 1) :
    (∃ e, s.applyLocked E blocks force = (s, .error e)) ∨
    Nonempty (Grown E s blocks (s.applyLocked E blocks force).1) := by
  unfold applyLocked
  split
  · exact .inl ⟨_, rfl⟩
  · rename_i prepared hprepare
    split
    · exact .inl ⟨_, rfl⟩
    · rename_i t ht
      right
      obtain ⟨c⟩ := commitBlocks_eq_ok ht
      have hheights := prepared_heights hprepare
      have hne : blocks ≠ [] := by
        rintro rfl
        cases hprepare
        obtain ⟨ds, -, ht⟩ := bind_eq_ok.mp ht
        exact throw_ne_ok ht
      obtain ⟨first, rest, rfl⟩ := List.exists_cons_of_ne_nil hne
      have hlast := List.getLast?_eq_some_getLast hne
      obtain ⟨p, hp, hplast⟩ := mapM_ok_getLast hprepare hlast
      obtain ⟨-, hpheight, -⟩ := prepareBlock_ok hplast
      have hafter := afterCommit_sameLog E t (prepared.map (·.1))
      have htip : t.lastHeight = max s.lastHeight (List.getLast (first :: rest) hne).height := by
        obtain ⟨-, -, hkept, -⟩ := (writeEntries_sameRecords c.written).chain
        obtain ⟨-, -, hwritten, -⟩ := c.same.chain
        have hmap : prepared.map (fun p => p.1.height) = first.height :: rest.map (·.height) := by
          rw [← List.map_cons, ← hheights, List.map_map]
          rfl
        rw [hwritten, writeBlocks_lastHeight c.stored, hkept, hmap]
        refine (foldl_max_of_isChain _ hchain ?_).1
        rw [← List.map_cons, List.getLast?_map, hlast]
        rfl
      refine ⟨⟨t, _, hlast, ?_, commitBlocks_rounds ht, hafter, ?_, ?_⟩⟩
      · obtain ⟨q, qs, hq, -, rfl⟩ := mapM_ok_cons.mp hprepare
        have hcheck := c.tip q rfl
        obtain ⟨-, hqheight, -⟩ := prepareBlock_ok hq
        unfold checkTip at hcheck
        simp only at hcheck
        split_ifs at hcheck with hzero hnext
        · exact .inl hzero
        · rw [not_not, hqheight] at hnext
          right
          rintro b ⟨⟩
          exact hnext
      · obtain ⟨-, -, hsame, -⟩ := hafter.sameChain.chain
        rw [hsame, htip]
      · have hlastBlock : (prepared.map (·.1)).getLast? = some p.1 := by
          rw [List.getLast?_map, hp]
          rfl
        rw [afterCommit_rounds hlastBlock, hpheight]

namespace Grown

variable {E : Env} {s s' : Store} {blocks : List Block}

theorem tip_eq (g : Grown E s blocks s')
    (hchain : (blocks.map fun b => b.height).IsChain fun a b => b = a + 1)
    (hpos : 0 < s.lastHeight) : s'.lastHeight = g.last.height ∧ s.lastHeight < s'.lastHeight := by
  obtain ⟨first, rest, rfl⟩ := List.exists_cons_of_ne_nil
    (show blocks ≠ [] by
      rintro rfl
      cases g.isLast)
  have hfirst := g.next.resolve_left (by omega) first rfl
  have hle : first.height ≤ g.last.height := by
    refine (foldl_max_of_isChain 0 hchain ?_).2
    rw [← List.map_cons, List.getLast?_map, g.isLast]
    rfl
  have htip := g.tip
  omega

/-- Only the snapshot that the last block writes changes. -/
theorem getRound_eq (g : Grown E s blocks s')
    (hchain : (blocks.map fun b => b.height).IsChain fun a b => b = a + 1)
    (hpos : 0 < s.lastHeight) {r : Nat}
    (h : E.network.EndsRound s'.lastHeight → E.network.opensRound s'.lastHeight ≠ r) :
    s'.getRound r = s.getRound r := by
  obtain ⟨htip, habove⟩ := g.tip_eq hchain hpos
  unfold getRound
  rw [g.rounds, ← htip, snapshotRound_rounds E g.written (by omega), g.kept]
  split_ifs with hend
  · rw [OrderedMap.getElem?_insert_eq, if_neg (h hend)]
  · rfl

theorem getRound_one (g : Grown E s blocks s')
    (hchain : (blocks.map fun b => b.height).IsChain fun a b => b = a + 1)
    (hpos : 0 < s.lastHeight) : s'.getRound 1 = s.getRound 1 := by
  refine g.getRound_eq hchain hpos fun hend => ?_
  have htwo := Network.two_le_opensRound (by have := (g.tip_eq hchain hpos).2; omega) hend
  omega

end Grown

/-- The rollback of a block drops the snapshot that the block wrote. -/
theorem RolledBack.getRound_eq {E : Env} {s s' : Store} (h : RolledBack E s s') {r : Nat}
    (hr : E.network.EndsRound s.lastHeight → E.network.opensRound s.lastHeight ≠ r) :
    s'.getRound r = s.getRound r := by
  obtain ⟨-, -, -, haccounts, -⟩ := h.transaction.same.chain
  obtain ⟨-, -, -, hwallets, -⟩ :=
    (restoreWallets_sameRecords { s with finality := h.certs } h.undo).chain
  have hreverted : h.reverted.rounds = s.rounds := by
    rw [h.transaction.result]
    exact haccounts.trans hwallets
  unfold Network.EndsRound Network.opensRound at hr
  unfold getRound
  rw [h.result]
  unfold dropRound
  simp only
  split_ifs with hend
  · rw [OrderedMap.getElem?_erase_eq, if_neg (hr hend), dropMissedAt_rounds, hreverted]
  · rw [dropMissedAt_rounds, hreverted]

/-- The snapshot of the first round stays once genesis is there. -/
theorem applyBlocks_getRound_one {E : Env} {s : Store} {blocks : List Block}
    (hchain : (blocks.map fun b => b.height).IsChain fun a b => b = a + 1)
    (hpos : 0 < s.lastHeight) :
    (s.applyBlocks E blocks).1.getRound 1 = s.getRound 1 ∧
    0 < (s.applyBlocks E blocks).1.lastHeight := by
  rw [applyBlocks_eq_applyChunks]
  refine applyChunks_preserves (P := fun t => t.getRound 1 = s.getRound 1 ∧ 0 < t.lastHeight) _
    ?_ ⟨rfl, hpos⟩
  rintro t chunk hchunk ⟨hround, htip⟩
  have hpiece := (subBatch_of_mem_chunks hchain chunk hchunk).chain
  rcases applyLocked_grown E t (s.forcesUndo blocks) hpiece with ⟨e, he⟩ | ⟨⟨g⟩⟩
  · rw [he]
    exact ⟨hround, htip⟩
  · exact ⟨(g.getRound_one hpiece htip).trans hround, by have := (g.tip_eq hpiece htip).2; omega⟩

theorem rollbackTo_getRound_one {E : Env} {s : Store} (height : Nat) (hpos : 0 < s.lastHeight) :
    (s.rollbackTo E height).1.getRound 1 = s.getRound 1 ∧
    0 < (s.rollbackTo E height).1.lastHeight := by
  refine rollbackTo_preserves (P := fun t => t.getRound 1 = s.getRound 1 ∧ 0 < t.lastHeight)
    ?_ (fun t certs ht => ht) height ⟨rfl, hpos⟩
  rintro t t' hrolled ⟨hround, htip⟩
  obtain ⟨-, -, hheight, -⟩ := hrolled.chain
  have habove := hrolled.above
  refine ⟨?_, by omega⟩
  rw [hrolled.getRound_eq, hround]
  intro hend
  have htwo := Network.two_le_opensRound htip hend
  omega

end Store

end SthCore
