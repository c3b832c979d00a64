import SthCore.Chain.Booked

/-!
What a failed call of `apply_blocks` leaves behind.  A call is cut into
sub-batches with a database transaction each, so that a failure undoes the
sub-batch it hits and none of those before it.
-/

namespace SthCore

open SthCore.Lib

namespace Store

/-- The database transaction of a sub-batch goes through. -/
def Commits (E : Env) (s : Store) (blocks : List Block) (force : Bool) : Prop :=
  ∃ prepared s', blocks.mapM (prepareBlock E) = .ok prepared ∧
    s.commitBlocks E prepared (force || s.undoEnabled) = .ok s'

/-- The first sub-batch of a call does not get through its transaction. -/
def FirstRefused (E : Env) (s : Store) (blocks : List Block) : Prop :=
  ∀ c ∈ (s.chunks E blocks).head?, ¬ s.Commits E c (s.forcesUndo blocks)

theorem applyLocked_refused {E : Env} {s : Store} {blocks : List Block} {force : Bool}
    (h : ¬ s.Commits E blocks force) : ∃ e, s.applyLocked E blocks force = (s, .error e) := by
  unfold applyLocked
  cases hprepared : blocks.mapM (prepareBlock E) with
  | error e => exact ⟨e, rfl⟩
  | ok prepared =>
      simp only
      cases hcommit : s.commitBlocks E prepared (force || s.undoEnabled) with
      | error e => exact ⟨e, rfl⟩
      | ok s' => exact absurd ⟨prepared, s', hprepared, hcommit⟩ h

theorem Committed.lastHeight_le {E : Env} {s s' : Store} {prepared : List (Block × List Bytes)}
    (c : Committed E s prepared s') : s.lastHeight ≤ s'.lastHeight := by
  have hwritten := (writeEntries_sameRecords c.written).chain.2.2.1
  have hsame := c.same.chain.2.2.1
  rw [hsame, ← hwritten]
  refine foldlM_preserves (P := fun t => c.wallets.lastHeight ≤ t.lastHeight) ?_ c.stored le_rfl
  intro t p t' _ ht hle
  have := (writeBlock_blocks ht).2
  omega

/-- The chain grows by a committed sub-batch of positive heights. -/
theorem Committed.lastHeight_lt {E : Env} {s s' : Store} {prepared : List (Block × List Bytes)}
    (c : Committed E s prepared s') {first : Block × List Bytes} (hfirst : first ∈ prepared.head?)
    (hpos : 0 < first.1.height) : s.lastHeight < s'.lastHeight := by
  have hwritten := (writeEntries_sameRecords c.written).chain.2.2.1
  have hsame := c.same.chain.2.2.1
  have htip := c.tip first hfirst
  unfold checkTip at htip
  simp only at htip
  have hlow : s.lastHeight < first.1.height := by
    split_ifs at htip with hzero hnext
    · omega
    · have := not_not.mp hnext
      omega
  obtain ⟨rest, rfl⟩ : ∃ rest, prepared = first :: rest := by
    cases prepared with
    | nil => cases hfirst
    | cons p rest =>
        obtain rfl := Option.some.inj hfirst
        exact ⟨rest, rfl⟩
  obtain ⟨t, ht, hrest⟩ := foldlM_cons_ok.mp c.stored
  have hheight := (writeBlock_blocks ht).2
  have hup : t.lastHeight ≤ c.chain.lastHeight := by
    refine foldlM_preserves (P := fun u => t.lastHeight ≤ u.lastHeight) ?_ hrest le_rfl
    intro u p u' _ hu hle
    have := (writeBlock_blocks hu).2
    omega
  omega

theorem applyChunks_lastHeight_le (E : Env) (s : Store) (chunks : List (List Block))
    (force : Bool) : s.lastHeight ≤ (s.applyChunks E chunks force).1.lastHeight := by
  refine applyChunks_preserves (P := fun t => s.lastHeight ≤ t.lastHeight) chunks ?_ le_rfl
  intro t c _ hle
  rcases applyLocked_cases E t c force with ⟨e, he⟩ | ⟨prepared, -, ⟨committed⟩⟩
  · rw [he]
    exact hle
  · exact le_trans hle committed.lastHeight_le

/-- A first sub-batch that commits stays. -/
theorem applyBlocks_lastHeight_lt {E : Env} {s : Store} {blocks : List Block}
    (hpos : ∀ b ∈ blocks, 0 < b.height) (h : ¬ s.FirstRefused E blocks) :
    s.lastHeight < (s.applyBlocks E blocks).1.lastHeight := by
  unfold FirstRefused at h
  push Not at h
  obtain ⟨c, hc, prepared, t, hprepared, hcommit⟩ := h
  rw [applyBlocks_eq_applyChunks]
  have hflat := chunks_flatten E s blocks
  cases hchunks : s.chunks E blocks with
  | nil =>
      rw [hchunks] at hc
      cases hc
  | cons d rest =>
      rw [hchunks] at hc hflat
      obtain rfl := Option.some.inj hc
      obtain ⟨committed, -⟩ := applyLocked_committed hprepared hcommit
      have hgrown : s.lastHeight < (s.applyLocked E d (s.forcesUndo blocks)).1.lastHeight := by
        cases prepared with
        | nil =>
            obtain ⟨ds, -, hthrow⟩ := bind_eq_ok.mp hcommit
            exact absurd hthrow throw_ne_ok
        | cons first others =>
            have hfirstHead : first ∈ (first :: others).head? := rfl
            refine committed.lastHeight_lt hfirstHead ?_
            obtain ⟨b, hb, hfirst⟩ := mapM_ok_mem hprepared first List.mem_cons_self
            rw [(prepareBlock_ok hfirst).2.1]
            refine hpos b ?_
            rw [← hflat, List.flatten_cons]
            exact List.mem_append_left _ hb
      rw [applyChunks_cons]
      unfold Outcome.andThen
      split
      · exact lt_of_lt_of_le hgrown (applyChunks_lastHeight_le E _ rest _)
      · exact hgrown

theorem applyBlocks_of_firstRefused {E : Env} {s : Store} {blocks : List Block}
    (h : s.FirstRefused E blocks) : (s.applyBlocks E blocks).1 = s := by
  rw [applyBlocks_eq_applyChunks]
  unfold FirstRefused at h
  cases hchunks : s.chunks E blocks with
  | nil => rfl
  | cons c rest =>
      rw [hchunks] at h
      obtain ⟨e, he⟩ := applyLocked_refused (h c rfl)
      rw [applyChunks_cons, he]
      rfl

end Store

/-- A call that fails leaves everything as it was exactly when its checks fail or its first
sub-batch is refused: `sync::apply_blocks`, and `Storage::apply_blocks` on positive heights. -/
theorem failed_call_unchanged (E : Env) (s : Store) (blocks : List Block) :
    (∀ tip verify e, (Sync.applyBlocks E s blocks tip verify).2 = .error e →
      ((Sync.applyBlocks E s blocks tip verify).1 = s ↔
        ((∃ e', Sync.checkBlocks E s blocks tip verify = .error e') ∨
          s.FirstRefused E blocks))) ∧
    ∀ e, (s.applyBlocks E blocks).2 = .error e →
      (s.FirstRefused E blocks → (s.applyBlocks E blocks).1 = s) ∧
      ((∀ b ∈ blocks, 0 < b.height) →
        (s.applyBlocks E blocks).1 = s → s.FirstRefused E blocks) := by
  have hstorage : (∀ b ∈ blocks, 0 < b.height) →
      (s.applyBlocks E blocks).1 = s → s.FirstRefused E blocks := by
    intro hpos hsame
    by_contra hcommits
    have hlt := Store.applyBlocks_lastHeight_lt hpos hcommits
    rw [hsame] at hlt
    exact lt_irrefl _ hlt
  constructor
  · intro tip verify e he
    unfold Sync.applyBlocks
    cases hchecked : Sync.checkBlocks E s blocks tip verify with
    | error e' => exact iff_of_true rfl (.inl ⟨e', rfl⟩)
    | ok tip' =>
        obtain ⟨tip₁, hlink, -⟩ := bind_eq_ok.mp hchecked
        obtain ⟨-, hpos, -⟩ := Chain.link_successive hlink
        show (s.applyBlocks E blocks).1 = s ↔ _
        constructor
        · intro hsame
          exact .inr (hstorage hpos hsame)
        · rintro (⟨e', he'⟩ | hrefused)
          · cases he'
          · exact Store.applyBlocks_of_firstRefused hrefused
  · intro e _
    exact ⟨Store.applyBlocks_of_firstRefused, hstorage⟩

open Reference

/-- The own block twice in one call: the first commits, the second meets the new tip. -/
theorem first_block_stays :
    ∃ e, ((({genesisStore with undoEnabled := true} : Store).applyBlocks linkEnv
        [ownBlock, ownBlock]).2 = .error e) ∧
      (({genesisStore with undoEnabled := true} : Store).applyBlocks linkEnv
        [ownBlock, ownBlock]).1 ≠ {genesisStore with undoEnabled := true} := by
  obtain ⟨hfails, hhigher⟩ :
      (({genesisStore with undoEnabled := true} : Store).applyBlocks linkEnv
        [ownBlock, ownBlock]).2.toOption = none ∧
      (({genesisStore with undoEnabled := true} : Store).applyBlocks linkEnv
        [ownBlock, ownBlock]).1.lastHeight ≠
          ({genesisStore with undoEnabled := true} : Store).lastHeight := by
    decide +kernel
  obtain ⟨e, he⟩ := exists_error_of_toOption hfails
  refine ⟨e, he, ?_⟩
  intro hsame
  exact hhigher (congrArg (fun s : Store => s.lastHeight) hsame)

/-- A block that is already there is refused, and nothing is left of the call. -/
theorem failed_call_unchanged_again :
    ∃ e, (genesisStore.applyBlocks linkEnv [genesis]).2 = .error e ∧
      (genesisStore.applyBlocks linkEnv [genesis]).1 = genesisStore := by
  obtain ⟨hfails, hpos, hstill⟩ :
      (genesisStore.applyBlocks linkEnv [genesis]).2.toOption = none ∧
      (∀ b ∈ [genesis], 0 < b.height) ∧
      (genesisStore.applyBlocks linkEnv [genesis]).1.lastHeight = genesisStore.lastHeight := by
    decide +kernel
  have hrefused : genesisStore.FirstRefused linkEnv [genesis] := by
    by_contra hcommits
    exact absurd hstill (Store.applyBlocks_lastHeight_lt hpos hcommits).ne'
  obtain ⟨e, he⟩ := exists_error_of_toOption hfails
  exact ⟨e, he, ((failed_call_unchanged linkEnv genesisStore [genesis]).2 e he).1 hrefused⟩

end SthCore
