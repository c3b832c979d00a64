import SthCore.Chain.Booked
import SthCore.Lib.Trail

/-!
A branch that was taken and left again: when the chain is back at the height
where it was, so is every wallet and every stored block.
-/

namespace SthCore

open SthCore.Lib

namespace Store

variable {E : Env} {s s' s₀ : Store}

/-- The undo records after a batch are older ones, or the one that takes the batch back. -/
theorem Committed.undo {prepared : List (Block × List Bytes)} (c : Committed E s prepared s')
    {height : Nat} {undo : UndoRecord} (h : s'.undo[height]? = some undo) :
    s.undo[height]? = some undo ∨ ∃ first ∈ prepared.head?, height = first.1.height ∧
      Edit.run s'.wallets undo = s.wallets := by
  rcases c.logged with hsame | ⟨first, hfirst, hput⟩
  · exact .inl (hsame ▸ h)
  · have hinsert : (s.undo.insert first.1.height (s.undoOf c.ds.toList))[height]? = some undo := by
      rw [hput] at h
      unfold putUndo at h
      simp only at h
      split_ifs at h with hdeep
      · rw [OrderedMap.getElem?_erase_eq] at h
        split_ifs at h
        exact h
      · exact h
    rw [OrderedMap.getElem?_insert_eq] at hinsert
    split_ifs at hinsert with hheight
    · obtain rfl := Option.some.inj hinsert
      refine .inr ⟨first, hfirst, hheight.symm, ?_⟩
      rw [c.sameLedger.wallets]
      exact run_undoOf c.written
    · exact .inl hinsert

/-- `s` came from `s₀` and can find its way back: the undo records lead from its wallets to
those of `s₀`, and no block is stored above its tip. -/
structure Tracked (s₀ s : Store) : Prop where
  trail : Trail Edit.run s₀.lastHeight s₀.wallets (fun height => s.undo[height]?) s.lastHeight
    s.wallets
  below : ∀ height, height ≤ s₀.lastHeight → s.blocks[height]? = s₀.blocks[height]?
  above : ∀ height, s.lastHeight < height → s.blocks[height]? = none

theorem Tracked.empty (on : Bool) :
    Tracked { undoEnabled := on } { undoEnabled := on } where
  trail := Trail.refl fun _ _ => rfl
  below := fun _ _ => rfl
  above := fun _ _ => rfl

/-- A new start on the way. -/
theorem Tracked.restart (h : Tracked s₀ s) : Tracked s s where
  trail := Trail.refl h.trail.above
  below := fun _ _ => rfl
  above := h.above

theorem Tracked.congr (h : Tracked s₀ s) (hwallets : s'.wallets = s.wallets)
    (hblocks : s'.blocks = s.blocks) (hundo : s'.undo = s.undo)
    (hlast : s'.lastHeight = s.lastHeight) : Tracked s₀ s' := by
  obtain ⟨trail, below, above⟩ := h
  refine ⟨?_, ?_, ?_⟩
  · rw [hwallets, hundo, hlast]
    exact trail
  · rw [hblocks]
    exact below
  · rw [hblocks, hlast]
    exact above

/-- A batch is a step up. -/
theorem Tracked.committed (h : Tracked s₀ s) {first : Block × List Bytes}
    {rest : List (Block × List Bytes)} (c : Committed E s (first :: rest) s')
    (hgrown : Chain.Grown s (first :: rest) s') : Tracked s₀ s' := by
  have hbase := h.trail.le
  refine ⟨h.trail.extend (hgrown.above first List.mem_cons_self)
    (hgrown.written first List.mem_cons_self).2 ?_, ?_, ?_⟩
  · intro height undo hundo
    rcases c.undo hundo with hold | ⟨p, hp, hheight, hback⟩
    · exact .inl hold
    · obtain rfl := Option.some.inj hp
      exact .inr ⟨hheight, hback⟩
  · intro height hle
    rw [hgrown.kept, h.below height hle]
    intro hmem
    obtain ⟨p, hp, rfl⟩ := List.mem_map.mp hmem
    have := hgrown.above p hp
    omega
  · intro height habove
    have hup := hgrown.up
    rw [hgrown.kept, h.above height (by omega)]
    intro hmem
    obtain ⟨p, hp, rfl⟩ := List.mem_map.mp hmem
    have := (hgrown.written p hp).2
    omega

theorem Tracked.applyLocked (h : Tracked s₀ s) {blocks : List Block}
    (hchain : Chain.Successive blocks) (hpos : ∀ b ∈ blocks, 0 < b.height) (force : Bool) :
    Tracked s₀ (s.applyLocked E blocks force).1 := by
  rcases applyLocked_cases E s blocks force with ⟨e, he⟩ | ⟨prepared, hprepared, ⟨c⟩⟩
  · rw [he]
    exact h
  · cases prepared with
    | nil =>
        obtain rfl : blocks = [] := List.map_eq_nil_iff.mp (prepared_heights hprepared).symm
        obtain ⟨e, he⟩ := applyLocked_nil E s force
        rw [he]
        exact h
    | cons first rest => exact h.committed c (Chain.grown_of_committed c hprepared hchain hpos)

theorem Tracked.applyBlocks (h : Tracked s₀ s) {blocks : List Block}
    (hchain : Chain.Successive blocks) (hpos : ∀ b ∈ blocks, 0 < b.height) :
    Tracked s₀ (s.applyBlocks E blocks).1 := by
  rw [applyBlocks_eq_applyChunks]
  refine applyChunks_preserves (P := Tracked s₀) _ ?_ h
  intro t c hc ht
  have hsub : c <:+: blocks := by
    rw [← chunks_flatten E s blocks]
    exact List.infix_of_mem_flatten hc
  have hpart : Chain.Successive c :=
    List.IsChain.infix hchain hsub
  exact ht.applyLocked hpart (fun b hb => hpos b (hsub.subset hb)) _

/-- A rollback that stays above the start is a step down. -/
theorem Tracked.rolledBack (h : Tracked s₀ s) (r : RolledBack E s s')
    (habove : s₀.lastHeight ≤ s'.lastHeight) : Tracked s₀ s' := by
  obtain ⟨hblocks, -, hlast, -⟩ := r.chain
  have hlow := r.above
  refine ⟨?_, ?_, ?_⟩
  · rw [hlast, r.accounts.1, restoreWallets_wallets, r.undoLog]
    refine h.trail.back (by omega) r.logged ?_
    intro height undo hsome
    rw [OrderedMap.getElem?_erase_eq] at hsome
    split_ifs at hsome with hheight
    exact ⟨hsome, fun heq => hheight heq.symm⟩
  · intro height hle
    rw [hblocks, OrderedMap.getElem?_erase_eq, if_neg (by omega)]
    exact h.below height hle
  · intro height hhigh
    rw [hblocks, OrderedMap.getElem?_erase_eq]
    split_ifs
    · rfl
    · exact h.above height (by omega)

end Store

namespace Chain

/-- Calls of a node that never takes its chain below the height where it was in `s₀`. -/
inductive Excursion (P : Primitives) (N : Network) (s₀ : Store) : Store → Prop
  | start : Excursion P N s₀ s₀
  | apply {s : Store} (now : Int) (blocks : List Block) :
      Excursion P N s₀ s → Successive blocks → (∀ b ∈ blocks, 0 < b.height) →
      Excursion P N s₀ (s.applyBlocks ⟨P, N, now⟩ blocks).1
  | rollback {s : Store} (now : Int) :
      Excursion P N s₀ s → s₀.lastHeight ≤ (s.rollbackLastBlock ⟨P, N, now⟩).1.lastHeight →
      Excursion P N s₀ (s.rollbackLastBlock ⟨P, N, now⟩).1
  | setUndo {s : Store} (on : Bool) :
      Excursion P N s₀ s → Excursion P N s₀ { s with undoEnabled := on }

variable {P : Primitives} {N : Network} {s₀ s : Store}

theorem Excursion.tracked (h : Excursion P N s₀ s) (hstart : Store.Tracked s₀ s₀) :
    Store.Tracked s₀ s := by
  induction h with
  | start => exact hstart
  | apply now blocks _ hchain hpos ih => exact ih.applyBlocks hchain hpos
  | rollback now _ habove ih =>
      rename_i s _
      cases hback : s.rollbackLastBlock ⟨P, N, now⟩ with
      | mk s' result =>
          rw [hback] at habove
          cases result with
          | error e =>
              obtain ⟨certs, rfl⟩ := Store.rollbackLastBlock_error hback
              exact ih.congr rfl rfl rfl rfl
          | ok tip =>
              obtain ⟨-, ⟨r⟩⟩ := Store.rollbackLastBlock_eq_ok hback
              exact ih.rolledBack r habove
  | setUndo on _ ih => exact ih.congr rfl rfl rfl rfl

end Chain

/-- A node that goes off on any branches, with as many batches and rollbacks as it takes, and is
at the height again where it was, has the wallets and the stored blocks that it had. -/
theorem wallets_returned (P : Primitives) (N : Network) (on : Bool) (s s' : Store)
    (hreached : Chain.Excursion P N { undoEnabled := on } s) (hrun : Chain.Excursion P N s s')
    (hback : s'.lastHeight = s.lastHeight) :
    s'.wallets = s.wallets ∧ s'.blocks = s.blocks := by
  have hstart := (hreached.tracked (Store.Tracked.empty on)).restart
  have htracked := hrun.tracked hstart
  refine ⟨htracked.trail.returned hback, ?_⟩
  apply Std.ExtTreeMap.ext_getElem?
  intro height
  by_cases hle : height ≤ s.lastHeight
  · exact htracked.below height hle
  · rw [htracked.above height (by omega), hstart.above height (by omega)]

open Reference in
theorem wallets_returned_own :
    let s := (ownStore.rollbackLastBlock linkEnv).1
    s.wallets = genesisStore.wallets ∧ s.blocks = genesisStore.blocks := by
  obtain ⟨hfirst, hsecond, habove, hback⟩ : (∀ b ∈ [genesis], 0 < b.height) ∧
      (∀ b ∈ [ownBlock], 0 < b.height) ∧
      genesisStore.lastHeight ≤ (ownStore.rollbackLastBlock
        ⟨linkEnv.prim, linkEnv.network, linkEnv.nowMs⟩).1.lastHeight ∧
      (ownStore.rollbackLastBlock linkEnv).1.lastHeight = genesisStore.lastHeight := by
    decide +kernel
  have hgenesis : Chain.Excursion linkEnv.prim linkEnv.network { undoEnabled := false }
      genesisStore :=
    .apply linkEnv.nowMs [genesis] .start (List.isChain_singleton _) hfirst
  have hown : Chain.Excursion linkEnv.prim linkEnv.network genesisStore ownStore :=
    .apply linkEnv.nowMs [ownBlock] .start (List.isChain_singleton _) hsecond
  exact wallets_returned linkEnv.prim linkEnv.network false genesisStore _ hgenesis
    (hown.rollback linkEnv.nowMs habove) hback

end SthCore
